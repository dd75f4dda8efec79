import PizzaLang.Proofs.Meaning
import PizzaLang.Proofs.Walk

/-!
# Successful compilations, as a relation

`PizzaLang.Compiler.Elaborates` says what a compilation does when nothing goes wrong: which
statements turn one menu into another, while which units are open, and which walk through the
program that takes. A definition puts its symbol at the end of the table, an order puts its
instruction at the end of the list, and an inclusion starts over with a blank menu for the
unit that it leads to and adds the result. The relation has no session, no order of events
and no limit on the depth; all later facts about successful compilations are inductions on it.

The second half of the file is the link to the program:
`PizzaLang.Compiler.compileNested_sound` and `PizzaLang.Compiler.analyze_sound` read the
relation off a run, together with what the run does to its session
(`PizzaLang.Compiler.Passed`).
-/

namespace PizzaLang

/-! ### The steps of a session -/

namespace CompileM

variable {α ε : Type} {s s' : Session}

theorem lift_eq_ok_iff {wrap : ε → CompileError} {result : Except ε α} {a : α} :
    lift wrap result s = .ok a s' ↔ result = .ok a ∧ s = s' := by
  cases result with
  | ok b => simp [lift]
  | error e => simp [lift]

theorem record_eq_ok_iff {e : Event} {u : Unit} :
    record e s = .ok u s' ↔ s' = { s with events := s.events.push e } := by
  simp only [record, EStateM.Result.ok.injEq, true_and]
  exact eq_comm

theorem chain_eq_ok_iff {units : List Path} :
    chain s = .ok units s' ↔ units = s.chain ∧ s = s' := by
  simp only [chain, EStateM.Result.ok.injEq]
  exact and_congr_left' eq_comm

/-- Work on a unit that succeeds is success with the unit on the chain. -/
theorem within_eq_ok_iff {unit : Path} {act : CompileM α} {a : α} :
    within unit act s = .ok a s' ↔
      ∃ u, act { s with chain := unit :: s.chain } = .ok a u ∧ s' = pop u := by
  have hpush : (do push unit; act : CompileM α) s = act { s with chain := unit :: s.chain } :=
    Stateful.bind_of_ok rfl
  rw [within, hpush]
  cases act { s with chain := unit :: s.chain } with
  | ok b u =>
    simp only [EStateM.Result.ok.injEq]
    constructor
    · rintro ⟨rfl, rfl⟩
      exact ⟨u, ⟨rfl, rfl⟩, rfl⟩
    · rintro ⟨v, ⟨rfl, rfl⟩, rfl⟩
      exact ⟨rfl, rfl⟩
  | error e u => simp

end CompileM

/-- The unit whose statements are about to be worked on. -/
def Event.entered? : Event → Option Path
  | entered (unit :: _) => some unit
  | _ => none

/-- **The units entered** in a session, in order. -/
def Session.visited (s : Session) : List Path := s.events.toList.filterMap Event.entered?

namespace Compiler

/-! ### The relation -/

/-- **What a definition declares**, in a unit and after a table of names. -/
inductive Declares (c : Compiler) (unit : Path) (t : SymbolTable) (definition : SyntaxTree) :
    Symbol → Prop
  /-- An ingredient, whose image has been measured. -/
  | ingredient {name path : SyntaxTree} {measured : Measurement} {i : Ingredient} :
      definition.kind = .ingredient → definition.child 0 = .ok name → name.child 0 = .ok path →
      c.images.measure path.value unit = .ok measured →
      ingredientOf definition name path measured.size = .ok i →
      Declares c unit t definition (.ingredient i)
  /-- A specialty. -/
  | specialty {p : Specialty} :
      definition.kind = .specialty → t.specialtyOf definition = .ok p →
      Declares c unit t definition (.specialty p)

/-- **A successful compilation** of statements, while the units of the chain are open: from
which menu, to which menu, along which walk. -/
inductive Elaborates (c : Compiler) :
    List Path → Menu → List SyntaxTree → Menu → List Visit → Prop
  /-- No statement is left. -/
  | done {chain : List Path} {m : Menu} : Elaborates c chain m [] m []
  /-- A definition adds its symbol. -/
  | define {chain : List Path} {m m' : Menu} {t d : SyntaxTree} {ts : List SyntaxTree}
      {s : Symbol} {walk : List Visit} :
      t.kind = .definition → t.child 0 = .ok d → c.Declares m.unit m.symbols d s →
      s.name ∉ m.symbols.names →
      Elaborates c chain { m with symbols := m.symbols.append (.only s) } ts m' walk →
      Elaborates c chain m (t :: ts) m' (.statement m.unit t :: walk)
  /-- An order adds its instruction. -/
  | order {chain : List Path} {m m' : Menu} {t : SyntaxTree} {ts : List SyntaxTree}
      {pizza : Pizza} {walk : List Visit} :
      t.kind = .make → m.symbols.pizzaOf t = .ok pizza →
      Elaborates c chain { m with instructions := m.instructions ++ [⟨t.position, pizza⟩] } ts
        m' walk →
      Elaborates c chain m (t :: ts) m' (.statement m.unit t :: walk)
  /-- An inclusion adds all that the unit it leads to has. -/
  | enter {chain : List Path} {m n m' : Menu} {t tree : SyntaxTree} {ts : List SyntaxTree}
      {id : Path} {inner walk : List Visit} :
      t.kind = .inclusion → c.sources.Includes m.unit t id tree →
      (∀ p ∈ m.unit :: chain, ¬id.Same p) →
      Elaborates c (id :: chain) (.blank id) tree.children n inner →
      (∀ name ∈ n.symbols.names, name ∉ m.symbols.names) →
      Elaborates c chain
        { m with
          instructions := m.instructions ++ n.instructions
          symbols := m.symbols.append n.symbols } ts m' walk →
      Elaborates c chain m (t :: ts) m' (.unit id :: (inner ++ walk))

variable {c : Compiler} {chain : List Path} {m m' : Menu} {ts : List SyntaxTree}
  {walk : List Visit}

/-- **Names are bound once**, and each declaration is under its own name. -/
theorem Elaborates.keyed (h : c.Elaborates chain m ts m' walk) (hm : m.symbols.Keyed) :
    m'.symbols.Keyed := by
  induction h with
  | done => exact hm
  | define _ _ _ hfree _ ih =>
    refine ih (hm.append SymbolTable.keyed_only fun n hn => ?_)
    obtain rfl := List.mem_singleton.mp hn
    exact hfree
  | order _ _ _ ih => exact ih hm
  | enter _ _ _ _ hdis _ ihinner ih =>
    exact ih (hm.append (ihinner SymbolTable.keyed_empty) hdis)

/-- A compilation goes along a walk through the program. -/
theorem Elaborates.toWalk (h : c.Elaborates chain m ts m' walk) :
    c.sources.Walk m.unit ts walk := by
  induction h with
  | done => exact .done
  | define hkind _ _ _ _ ih => exact .meet (Or.inl hkind) ih
  | order hkind _ _ ih => exact .meet (Or.inr hkind) ih
  | enter hkind hto _ _ _ _ ihinner ih => exact .enter hkind hto ihinner ih

/-- A compilation works on one unit. -/
theorem Elaborates.unit_eq (h : c.Elaborates chain m ts m' walk) : m'.unit = m.unit := by
  induction h with
  | done => rfl
  | define _ _ _ _ _ ih => exact ih
  | order _ _ _ ih => exact ih
  | enter _ _ _ _ _ _ _ ih => exact ih

/-- The symbol that a definition declares has the name that is written in it. -/
theorem Declares.name {unit : Path} {t : SymbolTable} {definition : SyntaxTree} {s : Symbol}
    (h : c.Declares unit t definition s) :
    ∃ name, definition.child 0 = .ok name ∧ s.name = name.value := by
  cases h with
  | @ingredient name _ _ i _ hname _ _ hi => exact ⟨name, hname, (of_ingredientOf hi).1⟩
  | specialty _ hp =>
    obtain ⟨name, portions, hname, -, rfl⟩ := SymbolTable.specialtyOf_eq_ok_iff.mp hp
    exact ⟨name, hname, rfl⟩

/-- A definition declares the same in every larger table. -/
theorem Declares.mono {unit : Path} {t t' : SymbolTable} {definition : SyntaxTree} {s : Symbol}
    (hw : t.Within t') (h : c.Declares unit t definition s) : c.Declares unit t' definition s := by
  cases h with
  | ingredient hkind hname hpath hm hi => exact .ingredient hkind hname hpath hm hi
  | specialty hkind hp => exact .specialty hkind (SymbolTable.specialtyOf_mono hw hp)

/-! ### What a run does to its session -/

/-- **An event reports the truth**: where it says that a unit has been compiled, it has been,
and to that many symbols. -/
def Reported (c : Compiler) : Event → Prop
  | .analyzed unit _ symbols => ∃ text tree chain m walk, IsProgram unit text tree ∧
      c.Elaborates (unit :: chain) (.blank unit) tree.children m walk ∧ symbols = m.symbols.size
  | _ => True

/-- **A session has passed from one state to another**: the chain is as before, the given
units have been entered in between, nothing is lost from the record, and all that is new in it
is true. -/
structure Passed (c : Compiler) (s s' : Session) (units : List Path) : Prop where
  chain : s'.chain = s.chain
  visited : s'.visited = s.visited ++ units
  kept : ∀ e ∈ s.events, e ∈ s'.events
  reported : ∀ e ∈ s'.events, e ∈ s.events ∨ c.Reported e

variable {s s' s₁ s₂ : Session} {units units' : List Path}

theorem Passed.refl (c : Compiler) (s : Session) : c.Passed s s [] :=
  ⟨rfl, (List.append_nil _).symm, fun _ he => he, fun _ he => Or.inl he⟩

theorem Passed.trans (h : c.Passed s s₁ units) (h' : c.Passed s₁ s₂ units') :
    c.Passed s s₂ (units ++ units') := by
  refine ⟨h'.chain.trans h.chain, ?_, fun e he => h'.kept e (h.kept e he), fun e he => ?_⟩
  · rw [h'.visited, h.visited, List.append_assoc]
  · rcases h'.reported e he with he | he
    · exact h.reported e he
    · exact Or.inr he

theorem Passed.record {e : Event} (hr : c.Reported e) :
    c.Passed s { s with events := s.events.push e } e.entered?.toList := by
  refine ⟨rfl, ?_, fun e' he' => Array.mem_push_of_mem _ he', fun e' he' => ?_⟩
  · simp only [Session.visited, Array.toList_push, List.filterMap_append, List.filterMap_cons,
      List.filterMap_nil]
    cases e.entered? <;> rfl
  · rcases Array.mem_push.mp he' with he' | rfl
    · exact Or.inl he'
    · exact Or.inr hr

/-- Looking something up, or noting what has been understood, enters no unit. -/
theorem Passed.note {e : Event} (h : c.Passed s s₁ []) (hr : c.Reported e)
    (he : e.entered? = none) : c.Passed s { s₁ with events := s₁.events.push e } [] := by
  have := h.trans (Passed.record (s := s₁) hr)
  rwa [he] at this

/-- Work on a unit passes a session on as the work itself does. -/
theorem Passed.pop {unit : Path} (h : c.Passed { s with chain := unit :: s.chain } s' units) :
    c.Passed s (CompileM.pop s') units := by
  refine ⟨?_, h.visited, h.kept, h.reported⟩
  rw [CompileM.pop, h.chain]
  rfl

/-- **Units are finished**: the record says of each that it has been compiled. -/
def Finished (s : Session) (units : List Path) : Prop :=
  ∀ u ∈ units, ∃ instructions symbols, Event.analyzed u instructions symbols ∈ s.events

theorem Finished.passed (h : Finished s units) (hp : c.Passed s s' units') : Finished s' units := by
  intro u hu
  obtain ⟨i, n, hmem⟩ := h u hu
  exact ⟨i, n, hp.kept _ hmem⟩

theorem Finished.append (h : Finished s units) (h' : Finished s units') :
    Finished s (units ++ units') :=
  fun u hu => (List.mem_append.mp hu).elim (h u) (h' u)

/-! ### Reading the relation off a run -/

theorem measure_run (c : Compiler) (reference : String) (origin : Path) (s : Session) :
    ∃ s', c.measure reference origin s =
        .ok ((c.images.measure reference origin).map (·.size)) s' ∧ c.Passed s s' [] := by
  have hnote := (Passed.refl c s).note (e := .measured reference origin) trivial rfl
  have hrecord : CompileM.record (.measured reference origin) s =
      .ok () { s with events := s.events.push (.measured reference origin) } := rfl
  rw [measure, Stateful.bind_of_ok hrecord]
  rcases c.images.measure reference origin with e | ⟨size, _ | file⟩
  · exact ⟨_, rfl, hnote⟩
  · exact ⟨_, rfl, hnote⟩
  · exact ⟨_, rfl, hnote.note (e := .sized file size) trivial rfl⟩

theorem symbolOf_sound {d : SyntaxTree} {symbol : Symbol}
    (h : c.symbolOf m d s = .ok symbol s') :
    c.Declares m.unit m.symbols d symbol ∧ c.Passed s s' [] := by
  cases hkind : d.kind
  case ingredient =>
    simp only [symbolOf, hkind, Stateful.bind_eq_ok_iff, CompileM.lift_eq_ok_iff,
      Stateful.pure_eq_ok_iff] at h
    obtain ⟨name, _, ⟨hname, rfl⟩, path, _, ⟨hpath, rfl⟩, answer, t, hanswer, size, _,
      ⟨hsize, rfl⟩, i, _, ⟨hi, rfl⟩, rfl, rfl⟩ := h
    obtain ⟨t', hrun, hpassed⟩ := c.measure_run path.value m.unit s
    obtain ⟨rfl, rfl⟩ := EStateM.Result.ok.inj (hrun.symm.trans hanswer)
    rw [Fallible.mapError_eq_ok_iff] at hsize
    cases hmeasured : c.images.measure path.value m.unit with
    | error e =>
      rw [hmeasured] at hsize
      cases hsize
    | ok measured =>
      rw [hmeasured] at hsize
      obtain rfl := Except.ok.inj hsize
      exact ⟨.ingredient hkind hname hpath hmeasured hi, hpassed⟩
  case specialty =>
    simp only [symbolOf, hkind, Stateful.bind_eq_ok_iff, CompileM.lift_eq_ok_iff,
      Stateful.pure_eq_ok_iff] at h
    obtain ⟨p, _, ⟨hp, rfl⟩, rfl, rfl⟩ := h
    exact ⟨.specialty hkind hp, .refl c s⟩
  all_goals
    simp only [symbolOf, hkind] at h
    exact absurd h Stateful.throw_ne_ok

theorem define_sound {t : SyntaxTree} (h : c.define m t s = .ok m' s') :
    (∃ d symbol, t.child 0 = .ok d ∧ c.Declares m.unit m.symbols d symbol ∧
      symbol.name ∉ m.symbols.names ∧
      m' = { m with symbols := m.symbols.append (.only symbol) }) ∧ c.Passed s s' [] := by
  simp only [define, Stateful.bind_eq_ok_iff, CompileM.lift_eq_ok_iff, CompileM.record_eq_ok_iff,
    Stateful.pure_eq_ok_iff] at h
  obtain ⟨d, _, ⟨hd, rfl⟩, symbol, s₁, hsymbol, -, _, rfl, symbols, _, ⟨hinsert, rfl⟩, rfl,
    rfl⟩ := h
  obtain ⟨hdeclares, hpassed⟩ := symbolOf_sound hsymbol
  obtain ⟨hfree, rfl⟩ := SymbolTable.insert_eq_ok_iff.mp hinsert
  exact ⟨⟨d, symbol, hd, hdeclares, hfree, rfl⟩, hpassed.note trivial rfl⟩

theorem order_sound {t : SyntaxTree} (h : order m t s = .ok m' s') :
    (∃ pizza, m.symbols.pizzaOf t = .ok pizza ∧
      m' = { m with instructions := m.instructions ++ [⟨t.position, pizza⟩] }) ∧
      c.Passed s s' [] := by
  simp only [order, Stateful.bind_eq_ok_iff, CompileM.lift_eq_ok_iff, CompileM.record_eq_ok_iff,
    Stateful.pure_eq_ok_iff] at h
  obtain ⟨pizza, _, ⟨hpizza, rfl⟩, -, _, rfl, rfl, rfl⟩ := h
  exact ⟨⟨pizza, hpizza, rfl⟩, (Passed.refl c s).note trivial rfl⟩

/-- The unit that an inclusion means is not open, and its text is the one that it has. -/
theorem resolve_sound {unit id : Path} {reference text : String} {position : Position}
    (h : c.resolve unit reference position s = .ok (id, text) s') :
    c.sources.locate ⟨reference⟩ (some unit) = .ok id ∧ c.sources.load id = .ok text ∧
      (∀ p ∈ unit :: s.chain, ¬id.Same p) ∧ c.Passed s s' [] := by
  rw [resolve] at h
  split at h
  · exact absurd h Stateful.throw_ne_ok
  simp only [locate, Stateful.bind_eq_ok_iff, CompileM.lift_eq_ok_iff, CompileM.record_eq_ok_iff,
    CompileM.chain_eq_ok_iff, Stateful.pure_eq_ok_iff, Fallible.mapError_eq_ok_iff] at h
  obtain ⟨_, _, ⟨-, _, rfl, rfl, rfl⟩, id', _, ⟨hid, rfl⟩, _, _, ⟨rfl, rfl⟩, h⟩ := h
  split at h
  · exact absurd h Stateful.throw_ne_ok
  next hbusy =>
  simp only [load, Stateful.bind_eq_ok_iff, CompileM.lift_eq_ok_iff, CompileM.record_eq_ok_iff,
    CompileM.chain_eq_ok_iff, Stateful.pure_eq_ok_iff, Fallible.mapError_eq_ok_iff,
    Prod.mk.injEq] at h
  obtain ⟨_, _, ⟨_, _, ⟨rfl, rfl⟩, -, _, rfl, rfl, rfl⟩, text', _, ⟨htext, rfl⟩, ⟨rfl, rfl⟩,
    rfl⟩ := h
  refine ⟨hid, htext, ?_, ((Passed.refl c s).note (e := .located ⟨reference⟩ (some unit))
    trivial rfl).note (e := .loaded _ s.chain) trivial rfl⟩
  rw [List.forall_mem_cons]
  exact ⟨fun hc => hbusy (Or.inl hc), fun p hp hc => hbusy (Or.inr ⟨p, hp, hc⟩)⟩

/-- **A menu is absorbed** exactly if it brings no name that is there. -/
theorem absorb_eq_ok_iff {n : Menu} (hn : n.symbols.Keyed) :
    absorb m n = .ok m' ↔ (∀ name ∈ n.symbols.names, name ∉ m.symbols.names) ∧
      m' = ⟨m.unit, m.instructions ++ n.instructions, m.symbols.append n.symbols⟩ := by
  rw [absorb]
  split
  · next symbols hmerge =>
    obtain ⟨hfree, rfl⟩ := (SymbolTable.merge_eq_none_iff hn).mp hmerge
    exact ⟨fun h => ⟨hfree, (Except.ok.inj h).symm⟩, fun h => congrArg Except.ok h.2.symm⟩
  · next symbols clash hmerge =>
    refine ⟨nofun, fun h => ?_⟩
    rw [(SymbolTable.merge_eq_none_iff hn).mpr ⟨h.1, rfl⟩] at hmerge
    cases hmerge

/-- What is known of a unit once it has been compiled to a menu. -/
def Compiled (c : Compiler) (id : Path) (text : String) (n : Menu) (s s' : Session) : Prop :=
  ∃ tree walk, IsProgram id text tree ∧
    c.Elaborates (id :: s.chain) (.blank id) tree.children n walk ∧
    c.Passed s s' (id :: unitsOf walk) ∧ Finished s' (id :: unitsOf walk)

section Statements

variable {compile : Path → String → CompileM Menu}

theorem includeUnit_sound
    (hcompile : ∀ id text s n s', compile id text s = .ok n s' → c.Compiled id text n s s')
    {t : SyntaxTree} (h : c.includeUnit compile m t s = .ok m' s') :
    ∃ id tree n inner, c.sources.Includes m.unit t id tree ∧
      (∀ p ∈ m.unit :: s.chain, ¬id.Same p) ∧
      c.Elaborates (id :: s.chain) (.blank id) tree.children n inner ∧
      (∀ name ∈ n.symbols.names, name ∉ m.symbols.names) ∧
      m' = { m with
        instructions := m.instructions ++ n.instructions
        symbols := m.symbols.append n.symbols } ∧
      c.Passed s s' (id :: unitsOf inner) ∧ Finished s' (id :: unitsOf inner) := by
  simp only [includeUnit, Stateful.bind_eq_ok_iff, CompileM.lift_eq_ok_iff,
    CompileM.record_eq_ok_iff] at h
  obtain ⟨path, _, ⟨hpath, rfl⟩, ⟨id, text⟩, s₁, hresolve, -, _, rfl, n, s₂, hn, habsorb, rfl⟩ := h
  obtain ⟨hid, htext, hopen, hpassed⟩ := resolve_sound hresolve
  replace hpassed := hpassed.note (e := .including id t.position) trivial rfl
  obtain ⟨tree, inner, htree, hmade, hpassed', hfinished⟩ := hcompile _ _ _ _ _ hn
  -- looking the unit up has left the chain alone
  rw [hpassed.chain] at hmade
  have hkeyed : n.symbols.Keyed := hmade.keyed SymbolTable.keyed_empty
  obtain ⟨hdis, heq⟩ := (absorb_eq_ok_iff hkeyed).mp habsorb
  exact ⟨id, tree, n, inner, ⟨path, text, hpath, hid, htext, htree⟩, hopen, hmade, hdis, heq,
    hpassed.trans hpassed', hfinished⟩

/-- Statements that are worked on one after the other elaborate a menu. -/
theorem statements_sound
    (hcompile : ∀ id text s n s', compile id text s = .ok n s' → c.Compiled id text n s s')
    (h : ts.foldlM (c.statement compile) m s = .ok m' s') :
    ∃ walk, c.Elaborates s.chain m ts m' walk ∧ c.Passed s s' (unitsOf walk) ∧
      Finished s' (unitsOf walk) := by
  induction ts generalizing m s with
  | nil =>
    obtain ⟨rfl, rfl⟩ := Stateful.pure_eq_ok_iff.mp h
    exact ⟨[], .done, .refl c s, fun _ hu => absurd hu List.not_mem_nil⟩
  | cons t ts ih =>
    rw [List.foldlM_cons] at h
    obtain ⟨m₁, s₁, ht, h⟩ := Stateful.bind_eq_ok_iff.mp h
    obtain ⟨walk, hmade, hpassed, hfinished⟩ := ih h
    cases hkind : t.kind
    case inclusion =>
      rw [statement, hkind] at ht
      obtain ⟨id, tree, n, inner, hto, hopen, hinner, hdis, rfl, hpassed₁, hfinished₁⟩ :=
        includeUnit_sound hcompile ht
      rw [hpassed₁.chain] at hmade
      refine ⟨_, .enter hkind hto hopen hinner hdis hmade, ?_, ?_⟩
      · simpa using hpassed₁.trans hpassed
      · simpa using (hfinished₁.passed hpassed).append hfinished
    case definition =>
      rw [statement, hkind] at ht
      obtain ⟨⟨d, symbol, hd, hdeclares, hfree, rfl⟩, hpassed₁⟩ := define_sound ht
      rw [hpassed₁.chain] at hmade
      exact ⟨_, .define hkind hd hdeclares hfree hmade, hpassed₁.trans hpassed, hfinished⟩
    case make =>
      rw [statement, hkind] at ht
      obtain ⟨⟨pizza, hpizza, rfl⟩, hpassed₁⟩ := order_sound (c := c) ht
      rw [hpassed₁.chain] at hmade
      exact ⟨_, .order hkind hpizza hmade, hpassed₁.trans hpassed, hfinished⟩
    all_goals
      rw [statement, hkind] at ht
      exact absurd ht Stateful.throw_ne_ok

/-- The menu of a tree is that of its statements, and the last event says so. -/
theorem analyzeWith_eq_ok_iff {unit : Path} {tree : SyntaxTree} :
    c.analyzeWith compile unit (some tree) s = .ok m s' ↔
      ∃ s₁, tree.children.foldlM (c.statement compile) (.blank unit) s = .ok m s₁ ∧
        s' = { s₁ with
          events := s₁.events.push (.analyzed unit m.instructions.length m.symbols.size) } := by
  simp only [analyzeWith, Stateful.bind_eq_ok_iff, CompileM.record_eq_ok_iff,
    Stateful.pure_eq_ok_iff]
  constructor
  · rintro ⟨n, s₁, hfold, -, _, rfl, rfl, rfl⟩
    exact ⟨s₁, hfold, rfl⟩
  · rintro ⟨s₁, hfold, rfl⟩
    exact ⟨m, s₁, hfold, (), _, rfl, rfl, rfl⟩

end Statements

/-- **A unit that is compiled is elaborated** from a blank menu, at whatever depth. -/
theorem compileNested_sound {room : Nat} {unit : Path} {text : String}
    (h : c.compileNested room unit text s = .ok m s') : c.Compiled unit text m s s' := by
  induction room generalizing unit text s m s' with
  | zero => exact absurd h Stateful.throw_ne_ok
  | succ room ih =>
    simp only [compileNested, Stateful.bind_eq_ok_iff, CompileM.lift_eq_ok_iff,
      CompileM.record_eq_ok_iff, CompileM.within_eq_ok_iff, CompileM.chain_eq_ok_iff] at h
    obtain ⟨tokens, _, ⟨htokens, rfl⟩, -, _, rfl, forest, _, ⟨hforest, rfl⟩, -, _, rfl, s₁,
      ⟨_, _, ⟨rfl, rfl⟩, -, _, rfl, h⟩, rfl⟩ := h
    have hread : forestOf unit text = .ok forest :=
      Fallible.bind_eq_ok_iff.mpr ⟨tokens, htokens, Fallible.mapError_eq_ok_iff.mpr hforest⟩
    cases htree : forest.tree? with
    | none =>
      rw [htree] at h
      exact absurd h Stateful.throw_ne_ok
    | some tree =>
      rw [htree] at h
      obtain ⟨s₂, hfold, rfl⟩ := analyzeWith_eq_ok_iff.mp h
      obtain ⟨walk, hmade, hpassed, hfinished⟩ := statements_sound (fun _ _ _ _ _ h => ih h) hfold
      have hprogram : IsProgram unit text tree := ⟨forest, hread, htree⟩
      refine ⟨tree, walk, hprogram, hmade, ?_⟩
      have hreport : c.Reported (.analyzed unit m.instructions.length m.symbols.size) :=
        ⟨text, tree, s.chain, m, walk, hprogram, hmade, rfl⟩
      have hnotes := ((Passed.refl c s).note (e := .lexed unit tokens.length) trivial rfl).note
        (e := .parsed unit forest.size) trivial rfl
      have hentered : c.Passed ⟨unit :: s.chain, (s.events.push (.lexed unit tokens.length)).push
          (.parsed unit forest.size)⟩ _ [unit] :=
        Passed.record (e := .entered (unit :: s.chain)) trivial
      have hinner := hentered.trans (hpassed.trans (Passed.record hreport))
      refine ⟨by simpa [Event.entered?] using hnotes.trans hinner.pop, fun u hu => ?_⟩
      rcases List.mem_cons.mp hu with rfl | hu
      · exact ⟨_, _, Array.mem_push_self⟩
      · exact hfinished.passed (Passed.record hreport) u hu

/-- **A tree that is taken for that of a unit is elaborated** from a blank menu. -/
theorem analyze_sound {unit : Path} {tree : Option SyntaxTree}
    (h : c.analyze unit tree s = .ok m s') :
    ∃ t walk, tree = some t ∧ c.Elaborates s.chain (.blank unit) t.children m walk := by
  cases tree with
  | none => exact absurd h Stateful.throw_ne_ok
  | some t =>
    obtain ⟨s₁, hfold, rfl⟩ := analyzeWith_eq_ok_iff.mp h
    obtain ⟨walk, hmade, -, -⟩ := statements_sound (fun _ _ _ _ _ h => compileNested_sound h) hfold
    exact ⟨t, walk, rfl, hmade⟩

/-! ### A small supply -/

/-- A compiler that knows two units, one of which includes the other, and one image. -/
def pantry : Compiler :=
  ofLibrary (.ofList [
      (⟨"base.pf"⟩,
        "define ingredient Ham('ham.png'); define specialty Hot \x7b ham(2 + 3); \x7d"),
      (⟨"menu.pf"⟩, "include 'base'; make big pizza of hot;")])
    (Gallery.ofList [("ham.png", .ok ⟨4, 4⟩)]).images

/-- A text that uses both units, one of them through the other. -/
def pantryOrder : String := "include 'menu'; make big pizza of hot add ham(1) and ham(2);"

theorem pantryOrder_compiles :
    ∃ m s', pantry.compileUnit ⟨"main.pf"⟩ pantryOrder (.ofChain []) = .ok m s' ∧
      m.symbols.names = ["ham", "hot"] ∧ m.instructions.length = 2 ∧
      s'.visited = [⟨"main.pf"⟩, ⟨"menu.pf"⟩, ⟨"base.pf"⟩] := by
  have h : Stateful.yields (pantry.compileUnit ⟨"main.pf"⟩ pantryOrder (.ofChain []))
      (fun m s' => m.symbols.names = ["ham", "hot"] ∧ m.instructions.length = 2 ∧
        s'.visited = [⟨"main.pf"⟩, ⟨"menu.pf"⟩, ⟨"base.pf"⟩]) = true := by
    decide +kernel
  obtain ⟨m, s', hm, htest⟩ := Stateful.exists_of_yields h
  exact ⟨m, s', hm, of_decide_eq_true htest⟩

end Compiler

end PizzaLang
