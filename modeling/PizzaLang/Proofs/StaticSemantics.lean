import PizzaLang.Proofs.Acceptance
import PizzaLang.Proofs.Blindness
import PizzaLang.Proofs.Expansion

/-!
# Static semantics

Which programs can be compiled, said without a table that grows and a run that stops at the first
fault. Every statement contributes names, each declared as something: a definition the one that is
written in it, an inclusion those of the unit that it leads to, an order none
(`PizzaLang.Compiler.contributed`). A program is valid if no name is contributed twice and if each
statement is acceptable where it stands, which looks at the names contributed before it and at
nothing else of the statements around it (`PizzaLang.Compiler.Valid`).

The proof goes along the statements. One statement adds its part to a menu exactly if it is
acceptable after the signature of the menu and brings no name that is there
(`PizzaLang.Compiler.answer_statement_eq_ok_iff`, `PizzaLang.Compiler.exists_adds_iff`), and what it
adds has the signature that it contributes. The result is `PizzaLang.Compiler.analyze_valid`.
-/

namespace PizzaLang

namespace Compiler

open CompileM

/-! ### Conditions -/

/-- **An inclusion is compiled to a menu**: it does not name the unit that it stands in, it leads
to a unit that is not open, and the text of that one can be had and compiles to the menu. -/
def Included (c : Compiler) (chain : List Path) (unit : Path) (t : SyntaxTree) (n : Menu) : Prop :=
  ∃ (path : SyntaxTree) (id : Path) (text : String), t.child? 0 = some path ∧
    ¬(unit.sibling ⟨s!"{path.value}.{sourceExtension}"⟩).Same unit ∧
    c.sources.locate ⟨s!"{path.value}.{sourceExtension}"⟩ (some unit) = .ok id ∧
    (∀ p ∈ unit :: chain, ¬id.Same p) ∧ c.sources.load id = .ok text ∧
    (c.compileUnit id text).answer chain = .ok n

/-- The menu of the unit that an inclusion leads to. -/
def included? (c : Compiler) (chain : List Path) (unit : Path) (t : SyntaxTree) : Option Menu := do
  let path ← t.child? 0
  let id ← (c.sources.locate ⟨s!"{path.value}.{sourceExtension}"⟩ (some unit)).toOption
  let text ← (c.sources.load id).toOption
  ((c.compileUnit id text).answer chain).toOption

/-- **What a statement contributes**: names, each with what it is declared as. -/
def contributed (c : Compiler) (chain : List Path) (unit : Path) (t : SyntaxTree) :
    List (String × SymbolKind) :=
  match t.kind with
  | .inclusion => ((c.included? chain unit t).map (·.symbols.signature)).getD []
  | .definition =>
    ((t.child? 0).bind fun d => (d.child? 0).map fun name =>
      (name.value, if d.kind = .ingredient then .ingredient else .specialty)).toList
  | _ => []

/-- **A statement is acceptable** after the names that are contributed before it. -/
structure Acceptable (c : Compiler) (chain : List Path) (unit : Path)
    (earlier : List (String × SymbolKind)) (t : SyntaxTree) : Prop where
  /-- What is included can be compiled. -/
  inclusion : t.kind = .inclusion → ∃ n, c.Included chain unit t n
  /-- The image of an ingredient is there, and is drawn as a square with an area. -/
  image : ∀ d name path, t.kind = .definition → t.child? 0 = some d → d.kind = .ingredient →
    d.child? 0 = some name → name.child? 0 = some path →
    ∃ measured size, c.images.measure path.value unit = .ok measured ∧
      d.DrawnAt measured.size size ∧ size.width = size.height ∧ 0 < size.height
  /-- What is used is an ingredient from before, in a positive quantity. -/
  uses : ∀ u ∈ t.uses, (u.value, .ingredient) ∈ earlier ∧
    ∃ e q, u.child? 0 = some e ∧ e.evaluate = .ok q ∧ 0 < q
  /-- What a pizza is made of is a specialty from before. -/
  bases : ∀ b ∈ t.bases, (b.value, .specialty) ∈ earlier
  /-- The size of a pizza is one of three. -/
  sizes : ∀ z ∈ t.sizes, z.value ∈ ["big", "medium", "personal"]

/-- **Statements are valid** after the names that are contributed before them: no name is
contributed twice, and each statement is acceptable after those before it. -/
structure Valid (c : Compiler) (chain : List Path) (unit : Path)
    (earlier : List (String × SymbolKind)) (ts : List SyntaxTree) : Prop where
  distinct : ((earlier ++ ts.flatMap (c.contributed chain unit)).map (·.1)).Nodup
  acceptable : ∀ before t after, ts = before ++ t :: after →
    c.Acceptable chain unit (earlier ++ before.flatMap (c.contributed chain unit)) t

/-! ### Parts of a menu -/

/-- **What a statement adds** to a menu, after a table of names: declarations and
instructions. -/
inductive Adds (c : Compiler) (chain : List Path) (unit : Path) (table : SymbolTable)
    (t : SyntaxTree) : SymbolTable × List Instruction → Prop
  | inclusion {n : Menu} : t.kind = .inclusion → c.Included chain unit t n →
      Adds c chain unit table t (n.symbols, n.instructions)
  | definition {d : SyntaxTree} {s : Symbol} : t.kind = .definition → t.child? 0 = some d →
      c.Declares unit table d s → Adds c chain unit table t (.only s, [])
  | make {pizza : Pizza} : t.kind = .make → table.pizzaOf t = .ok pizza →
      Adds c chain unit table t (.empty, [⟨t.position, pizza⟩])

/-- **What statements add**, each after the table of those before it. -/
inductive AddsAll (c : Compiler) (chain : List Path) (unit : Path) :
    SymbolTable → List SyntaxTree → List (SymbolTable × List Instruction) → Prop
  | nil {table : SymbolTable} : AddsAll c chain unit table [] []
  | cons {table : SymbolTable} {t : SyntaxTree} {ts : List SyntaxTree}
      {part : SymbolTable × List Instruction} {parts : List (SymbolTable × List Instruction)} :
      c.Adds chain unit table t part → AddsAll c chain unit (table.append part.1) ts parts →
      AddsAll c chain unit table (t :: ts) (part :: parts)

variable {c : Compiler} {chain : List Path} {unit : Path} {m m' : Menu} {t : SyntaxTree}
  {ts : List SyntaxTree} {table : SymbolTable} {part : SymbolTable × List Instruction}

theorem Included.included? {n : Menu} (h : c.Included chain unit t n) :
    c.included? chain unit t = some n := by
  obtain ⟨path, id, text, hpath, -, hid, -, htext, hn⟩ := h
  simp [Compiler.included?, hpath, hid, htext, hn, Except.toOption]

theorem Included.keyed {n : Menu} (h : c.Included chain unit t n) : n.symbols.Keyed := by
  obtain ⟨-, id, text, -, -, -, -, -, hn⟩ := h
  obtain ⟨s', hrun⟩ :=
    ((blind_compileNested _ id text).answer_eq_ok_iff (s := .ofChain chain)).mp hn
  obtain ⟨tree, walk, -, hmade, -⟩ := compileNested_sound hrun
  exact hmade.keyed SymbolTable.keyed_empty

theorem Adds.keyed (h : c.Adds chain unit table t part) : part.1.Keyed := by
  cases h with
  | inclusion _ hn => exact hn.keyed
  | definition => exact SymbolTable.keyed_only
  | make => exact SymbolTable.keyed_empty

theorem Declares.kind {d : SyntaxTree} {s : Symbol} (h : c.Declares unit table d s) :
    s.kind = if d.kind = .ingredient then .ingredient else .specialty := by
  cases h with
  | ingredient hkind => rw [if_pos hkind]; rfl
  | specialty hkind => rw [if_neg (by simp [hkind])]; rfl

/-- **What a statement adds has the signature that it contributes.** -/
theorem Adds.contributed (h : c.Adds chain unit table t part) :
    c.contributed chain unit t = part.1.signature := by
  rw [Compiler.contributed]
  cases h with
  | inclusion hkind hn => rw [hkind, hn.included?]; rfl
  | @definition d s hkind hd hs =>
    obtain ⟨name, hname, heq⟩ := hs.name
    rw [hkind, hd, Option.bind_some, SyntaxTree.child_eq_ok_iff.mp hname, ← hs.kind,
      SymbolTable.signature_only, heq]
    rfl
  | make hkind => rw [hkind]; rfl

theorem adds_inclusion_iff (hkind : t.kind = .inclusion) : c.Adds chain unit table t part ↔
    ∃ n, c.Included chain unit t n ∧ part = (n.symbols, n.instructions) := by
  constructor
  · rintro (⟨_, hn⟩ | ⟨hkind'⟩ | ⟨hkind'⟩)
    · exact ⟨_, hn, rfl⟩
    all_goals simp [hkind] at hkind'
  · rintro ⟨n, hn, rfl⟩
    exact .inclusion hkind hn

theorem adds_definition_iff (hkind : t.kind = .definition) : c.Adds chain unit table t part ↔
    ∃ d s, t.child? 0 = some d ∧ c.Declares unit table d s ∧ part = (.only s, []) := by
  constructor
  · rintro (⟨hkind'⟩ | ⟨_, hd, hs⟩ | ⟨hkind'⟩)
    · simp [hkind] at hkind'
    · exact ⟨_, _, hd, hs, rfl⟩
    · simp [hkind] at hkind'
  · rintro ⟨d, s, hd, hs, rfl⟩
    exact .definition hkind hd hs

theorem adds_make_iff (hkind : t.kind = .make) : c.Adds chain unit table t part ↔
    ∃ pizza, table.pizzaOf t = .ok pizza ∧ part = (.empty, [⟨t.position, pizza⟩]) := by
  constructor
  · rintro (⟨hkind'⟩ | ⟨hkind'⟩ | ⟨_, hpizza⟩)
    · simp [hkind] at hkind'
    · simp [hkind] at hkind'
    · exact ⟨_, hpizza, rfl⟩
  · rintro ⟨pizza, hpizza, rfl⟩
    exact .make hkind hpizza

/-! ### One statement -/

theorem blind_nested : Blind (c.statement (c.compileNested c.limit) m t) :=
  blind_statement (blind_compileNested c.limit)

theorem blind_statements (m : Menu) :
    Blind (ts.foldlM (c.statement (c.compileNested c.limit)) m) :=
  blind_foldlM (fun _ _ => blind_nested) ts m

theorem resolve_complete {reference text : String} {position : Position} {id : Path} (s : Session)
    (hself : ¬(unit.sibling ⟨reference⟩).Same unit)
    (hid : c.sources.locate ⟨reference⟩ (some unit) = .ok id)
    (hopen : ∀ p ∈ unit :: s.chain, ¬id.Same p) (htext : c.sources.load id = .ok text) :
    ∃ s', c.resolve unit reference position s = .ok (id, text) s' := by
  have hbusy : ¬(id.Same unit ∨ ∃ other ∈ s.chain, id.Same other) := by
    rw [List.forall_mem_cons] at hopen
    rintro (hunit | ⟨other, hother, hsame⟩)
    · exact hopen.1 hunit
    · exact hopen.2 other hother hsame
  rw [resolve, if_neg hself]
  refine ⟨{ s with
    events := (s.events.push (.located ⟨reference⟩ (some unit))).push (.loaded id s.chain) }, ?_⟩
  simp only [locate, load, Stateful.bind_eq_ok_iff, lift_eq_ok_iff, record_eq_ok_iff,
    chain_eq_ok_iff, Stateful.pure_eq_ok_iff, Fallible.mapError_eq_ok_iff]
  refine ⟨_, _, ⟨(), _, rfl, rfl, rfl⟩, id, _, ⟨hid, rfl⟩, s.chain, _, ⟨rfl, rfl⟩, ?_⟩
  rw [if_neg hbusy]
  simp only [Stateful.bind_eq_ok_iff, lift_eq_ok_iff, record_eq_ok_iff,
    chain_eq_ok_iff, Stateful.pure_eq_ok_iff, Fallible.mapError_eq_ok_iff]
  exact ⟨_, _, ⟨_, _, ⟨rfl, rfl⟩, (), _, rfl, rfl, rfl⟩, text, _, ⟨htext, rfl⟩, rfl, rfl⟩

/-- **A reference leads to a unit** if it does not name its own, and if what it locates is not
open and has a text. -/
theorem answer_resolve_eq_ok_iff {reference text : String} {position : Position} {id : Path} :
    (c.resolve unit reference position).answer chain = .ok (id, text) ↔
      ¬(unit.sibling ⟨reference⟩).Same unit ∧ c.sources.locate ⟨reference⟩ (some unit) = .ok id ∧
        (∀ p ∈ unit :: chain, ¬id.Same p) ∧ c.sources.load id = .ok text := by
  -- the unit's own name is refused before anything is located
  by_cases hself : (unit.sibling ⟨reference⟩).Same unit
  · rw [resolve, if_pos hself]
    exact ⟨fun h => absurd h answer_throw_ne_ok, fun h => absurd hself h.1⟩
  · refine (blind_resolve.answer_eq_ok_iff (s := .ofChain chain)).trans ⟨?_, ?_⟩
    · rintro ⟨s', h⟩
      obtain ⟨hid, htext, hopen, -⟩ := resolve_sound h
      exact ⟨hself, hid, hopen, htext⟩
    · rintro ⟨-, hid, hopen, htext⟩
      exact resolve_complete _ hself hid hopen htext

theorem answer_includeUnit_eq_ok_iff :
    (c.includeUnit (c.compileNested c.limit) m t).answer chain = .ok m' ↔
      ∃ n, c.Included chain m.unit t n ∧ absorb m n = .ok m' := by
  -- what is left to do of an inclusion once its unit is found, with the announcement and without
  have hadd : ∀ id text, Blind (c.compileNested c.limit id text >>= fun n =>
      lift (.semantic ∘ .duplicate) (absorb m n)) :=
    fun _ _ => (blind_compileNested _ _ _).bind fun _ => blind_lift
  have hfound : ∀ found : Path × String, Blind (record (.including found.1 t.position) >>=
      fun _ => c.compileNested c.limit found.1 found.2 >>= fun n =>
        lift (.semantic ∘ .duplicate) (absorb m n)) :=
    fun _ => blind_record.bind fun _ => hadd _ _
  constructor
  · intro h
    obtain ⟨path, hpath, h⟩ :=
      (blind_lift.answer_bind_eq_ok_iff fun _ => blind_resolve.bind hfound).mp h
    obtain ⟨⟨id, text⟩, hresolve, h⟩ := (blind_resolve.answer_bind_eq_ok_iff hfound).mp h
    obtain ⟨-, -, h⟩ := (blind_record.answer_bind_eq_ok_iff fun _ => hadd id text).mp h
    obtain ⟨n, hn, h⟩ :=
      ((blind_compileNested _ _ _).answer_bind_eq_ok_iff fun _ => blind_lift).mp h
    obtain ⟨hself, hid, hopen, htext⟩ := answer_resolve_eq_ok_iff.mp hresolve
    have hchild := SyntaxTree.child_eq_ok_iff.mp (answer_lift_eq_ok_iff.mp hpath)
    exact ⟨n, ⟨path, id, text, hchild, hself, hid, hopen, htext, hn⟩, answer_lift_eq_ok_iff.mp h⟩
  · rintro ⟨n, ⟨path, id, text, hchild, hself, hid, hopen, htext, hn⟩, habsorb⟩
    refine (blind_lift.answer_bind_eq_ok_iff fun _ => blind_resolve.bind hfound).mpr ⟨path, ?_, ?_⟩
    · exact answer_lift_eq_ok_iff.mpr (SyntaxTree.child_eq_ok_iff.mpr hchild)
    refine (blind_resolve.answer_bind_eq_ok_iff hfound).mpr ⟨(id, text), ?_, ?_⟩
    · exact answer_resolve_eq_ok_iff.mpr ⟨hself, hid, hopen, htext⟩
    refine (blind_record.answer_bind_eq_ok_iff fun _ => hadd id text).mpr ⟨(), answer_record, ?_⟩
    exact ((blind_compileNested _ _ _).answer_bind_eq_ok_iff fun _ => blind_lift).mpr
      ⟨n, hn, answer_lift_eq_ok_iff.mpr habsorb⟩

theorem answer_define_eq_ok_iff : (c.define m t).answer chain = .ok m' ↔
    ∃ d symbol, t.child? 0 = some d ∧ c.Declares m.unit m.symbols d symbol ∧
      symbol.name ∉ m.symbols.names ∧
      m' = { m with symbols := m.symbols.append (.only symbol) } := by
  refine (blind_define.answer_eq_ok_iff (s := .ofChain chain)).trans ?_
  simp only [← SyntaxTree.child_eq_ok_iff]
  constructor
  · rintro ⟨s', hrun⟩
    exact (define_sound hrun).1
  · rintro ⟨d, symbol, hd, hsymbol, hfree, rfl⟩
    exact define_complete hd hsymbol hfree _

theorem answer_order_eq_ok_iff : (order m t).answer chain = .ok m' ↔
    ∃ pizza, m.symbols.pizzaOf t = .ok pizza ∧
      m' = { m with instructions := m.instructions ++ [⟨t.position, pizza⟩] } := by
  refine (blind_lift.answer_bind_eq_ok_iff fun _ => blind_record.bind fun _ => blind_pure).trans ?_
  simp only [answer_lift_eq_ok_iff]
  constructor
  · rintro ⟨pizza, hpizza, hm⟩
    exact ⟨pizza, hpizza, (Except.ok.inj hm).symm⟩
  · rintro ⟨pizza, hpizza, rfl⟩
    exact ⟨pizza, hpizza, rfl⟩

/-- **A statement adds its part to a menu**, if it brings no name that is there. -/
theorem answer_statement_eq_ok_iff :
    (c.statement (c.compileNested c.limit) m t).answer chain = .ok m' ↔
      ∃ part, c.Adds chain m.unit m.symbols t part ∧
        (∀ name ∈ part.1.names, name ∉ m.symbols.names) ∧
        m' = ⟨m.unit, m.instructions ++ part.2, m.symbols.append part.1⟩ := by
  rw [statement]
  split
  · next hkind =>
    simp only [answer_includeUnit_eq_ok_iff, adds_inclusion_iff hkind]
    constructor
    · rintro ⟨n, hn, habsorb⟩
      exact ⟨_, ⟨n, hn, rfl⟩, (absorb_eq_ok_iff hn.keyed).mp habsorb⟩
    · rintro ⟨_, ⟨n, hn, rfl⟩, hadded⟩
      exact ⟨n, hn, (absorb_eq_ok_iff hn.keyed).mpr hadded⟩
  · next hkind =>
    simp only [answer_define_eq_ok_iff, adds_definition_iff hkind]
    constructor
    · rintro ⟨d, symbol, hd, hsymbol, hfree, rfl⟩
      exact ⟨_, ⟨d, symbol, hd, hsymbol, rfl⟩, by simpa using hfree, by simp⟩
    · rintro ⟨_, ⟨d, symbol, hd, hsymbol, rfl⟩, hfree, rfl⟩
      exact ⟨d, symbol, hd, hsymbol, by simpa using hfree, by simp⟩
  · next hkind =>
    simp only [answer_order_eq_ok_iff, adds_make_iff hkind]
    constructor
    · rintro ⟨pizza, hpizza, rfl⟩
      exact ⟨_, ⟨pizza, hpizza, rfl⟩, by simp, by simp⟩
    · rintro ⟨_, ⟨pizza, hpizza, rfl⟩, -, rfl⟩
      exact ⟨pizza, hpizza, by simp⟩
  · next hincl hdef hmake =>
    refine ⟨fun h => absurd h answer_throw_ne_ok, ?_⟩
    rintro ⟨part, ⟨hkind⟩ | ⟨hkind⟩ | ⟨hkind⟩, -⟩
    · exact absurd hkind hincl
    · exact absurd hkind hdef
    · exact absurd hkind hmake

/-! ### Statements that add something -/

section Definitions

variable {value : String} {position : Position} {d : SyntaxTree}

theorem exists_adds_definition_iff :
    (∃ part, c.Adds chain unit table (.node ⟨.definition, value, position⟩ [d]) part) ↔
      ∃ s, c.Declares unit table d s := by
  simp only [adds_definition_iff (t := .node ⟨.definition, value, position⟩ [d]) rfl]
  constructor
  · rintro ⟨part, d', s, hd, hs, -⟩
    obtain rfl := Option.some.inj hd
    exact ⟨s, hs⟩
  · rintro ⟨s, hs⟩
    exact ⟨_, d, s, rfl, hs, rfl⟩

/-- **The definition of an ingredient** adds something exactly if its image can be had and is
drawn as a square with an area. -/
theorem exists_adds_ingredient_iff {name path : SyntaxTree} (hkind : d.kind = .ingredient)
    (hname : d.child? 0 = some name) (hpath : name.child? 0 = some path) :
    (∃ part, c.Adds chain unit table (.node ⟨.definition, value, position⟩ [d]) part) ↔
      c.Acceptable chain unit table.signature (.node ⟨.definition, value, position⟩ [d]) := by
  rw [exists_adds_definition_iff]
  constructor
  · rintro ⟨s, hs⟩
    cases hs with
    | specialty hkind' => simp [hkind] at hkind'
    | @ingredient name' path' measured i _ hname' hpath' hmeasured hi =>
      obtain ⟨size, hsize, hsquare, hpos, -⟩ := ingredientOf_eq_ok_iff.mp hi
      have hdrawn := drawnSize_eq_ok_iff.mp hsize
      refine ⟨nofun, ?_, ?_, nofun, nofun⟩
      · rintro d' name'' path'' - hd - hname'' hpath''
        obtain rfl := Option.some.inj hd
        obtain rfl := Option.some.inj (hname''.symm.trans (SyntaxTree.child_eq_ok_iff.mp hname'))
        obtain rfl := Option.some.inj (hpath''.symm.trans (SyntaxTree.child_eq_ok_iff.mp hpath'))
        exact ⟨measured, size, hmeasured, hdrawn, hsquare, hpos⟩
      · intro u hu
        rw [SyntaxTree.uses_ingredient hkind] at hu
        cases hu
  · intro h
    obtain ⟨measured, size, hmeasured, hdrawn, hsquare, hpos⟩ :=
      h.image d name path rfl rfl hkind hname hpath
    exact ⟨_, .ingredient hkind (SyntaxTree.child_eq_ok_iff.mpr hname)
      (SyntaxTree.child_eq_ok_iff.mpr hpath) hmeasured
      (ingredientOf_eq_ok_iff.mpr ⟨size, drawnSize_eq_ok_iff.mpr hdrawn, hsquare, hpos, rfl⟩)⟩

/-- **The definition of a specialty** adds something exactly if all uses in it have a meaning. -/
theorem exists_adds_specialty_iff {value' : String} {position' : Position} {name : NodeLabel}
    {uses : List SyntaxTree} (hkeyed : table.Keyed)
    (hd : d = .node ⟨.specialty, value', position'⟩ [.node name uses]) :
    (∃ part, c.Adds chain unit table (.node ⟨.definition, value, position⟩ [d]) part) ↔
      c.Acceptable chain unit table.signature (.node ⟨.definition, value, position⟩ [d]) := by
  subst hd
  have hdeclares : (∃ s, c.Declares unit table
      (.node ⟨.specialty, value', position'⟩ [.node name uses]) s) ↔ ∃ p, table.specialtyOf
      (.node ⟨.specialty, value', position'⟩ [.node name uses]) = .ok p := by
    constructor
    · rintro ⟨s, hs⟩
      cases hs with
      | ingredient hkind => cases hkind
      | specialty _ hp => exact ⟨_, hp⟩
    · rintro ⟨p, hp⟩
      exact ⟨_, .specialty rfl hp⟩
  rw [exists_adds_definition_iff, hdeclares, SymbolTable.exists_specialtyOf_iff]
  simp only [SymbolTable.exists_portionOf_iff hkeyed]
  constructor
  · intro huses
    refine ⟨nofun, ?_, ?_, nofun, nofun⟩
    · rintro d name path - hd hkind
      obtain rfl := Option.some.inj hd
      cases hkind
    · rw [SyntaxTree.uses_specialty]
      exact huses
  · intro h
    have huses := h.uses
    rwa [SyntaxTree.uses_specialty] at huses

end Definitions

/-- **An order** adds something exactly if its size is known and all that it names is there. -/
theorem exists_adds_make_iff {value : String} {position : Position} {size pizza : NodeLabel}
    {clauses : List SyntaxTree} (hkeyed : table.Keyed)
    (hclauses : ∀ clause ∈ clauses, clause.IsClause)
    (ht : t = .node ⟨.make, value, position⟩ [.node size [.node pizza clauses]]) :
    (∃ part, c.Adds chain unit table t part) ↔ c.Acceptable chain unit table.signature t := by
  have hkind : t.kind = .make := by rw [ht]; rfl
  have hpizza : (∃ part, c.Adds chain unit table t part) ↔ ∃ p, table.pizzaOf t = .ok p := by
    simp only [adds_make_iff hkind]
    exact ⟨fun ⟨_, p, hp, _⟩ => ⟨p, hp⟩, fun ⟨p, hp⟩ => ⟨_, p, hp, rfl⟩⟩
  have huses : t.uses = SyntaxTree.partsOf .add clauses := by rw [ht, SyntaxTree.uses_make]
  have hbases : t.bases = SyntaxTree.partsOf .ofClause clauses := by rw [ht, SyntaxTree.bases_make]
  have hsizes : t.sizes = [.node size [.node pizza clauses]] := by rw [ht]; rfl
  rw [hpizza, ht, SymbolTable.exists_pizzaOf_iff hclauses, ← ht]
  simp only [SymbolTable.exists_portionOf_iff hkeyed, SymbolTable.exists_useSpecialty_iff hkeyed]
  constructor
  · rintro ⟨hsize, hall⟩
    refine ⟨by simp [hkind], by simp [hkind], fun u hu => ?_, fun b hb => ?_, fun z hz => ?_⟩
    · rw [huses, SyntaxTree.mem_partsOf] at hu
      obtain ⟨clause, hclause, hadd, hu⟩ := hu
      exact (hall clause hclause).1 hadd u hu
    · rw [hbases, SyntaxTree.mem_partsOf] at hb
      obtain ⟨clause, hclause, hof, hb⟩ := hb
      exact (hall clause hclause).2 hof b hb
    · rw [hsizes, List.mem_singleton] at hz
      rw [hz]
      exact hsize
  · intro h
    refine ⟨?_, fun clause hclause => ⟨fun hadd u hu => h.uses u ?_, fun hof b hb => h.bases b ?_⟩⟩
    · exact h.sizes _ (hsizes ▸ List.mem_singleton_self _)
    · rw [huses, SyntaxTree.mem_partsOf]
      exact ⟨clause, hclause, hadd, hu⟩
    · rw [hbases, SyntaxTree.mem_partsOf]
      exact ⟨clause, hclause, hof, hb⟩

/-- **A statement adds something exactly if it is acceptable.** -/
theorem exists_adds_iff (ht : t.IsStatement) (hkeyed : table.Keyed) :
    (∃ part, c.Adds chain unit table t part) ↔ c.Acceptable chain unit table.signature t := by
  cases ht with
  | inclusion =>
    constructor
    · rintro ⟨part, hpart⟩
      obtain ⟨n, hn, -⟩ := (adds_inclusion_iff rfl).mp hpart
      exact ⟨fun _ => ⟨n, hn⟩, nofun, nofun, nofun, nofun⟩
    · intro h
      obtain ⟨n, hn⟩ := h.inclusion rfl
      exact ⟨_, .inclusion rfl hn⟩
  | definition hd =>
    cases hd with
    | ingredient => exact exists_adds_ingredient_iff rfl rfl rfl
    | resized => exact exists_adds_ingredient_iff rfl rfl rfl
    | specialty => exact exists_adds_specialty_iff hkeyed rfl
  | make hclauses => exact exists_adds_make_iff hkeyed hclauses rfl

/-! ### Statements in order -/

theorem valid_nil_iff {earlier : List (String × SymbolKind)} :
    c.Valid chain unit earlier [] ↔ (earlier.map (·.1)).Nodup := by
  constructor
  · intro h
    simpa using h.distinct
  · intro h
    exact ⟨by simpa using h, fun before t after heq => by simp at heq⟩

/-- **The first statement** is acceptable, and the others are valid after what it contributes. -/
theorem valid_cons_iff {earlier : List (String × SymbolKind)} :
    c.Valid chain unit earlier (t :: ts) ↔ c.Acceptable chain unit earlier t ∧
      c.Valid chain unit (earlier ++ c.contributed chain unit t) ts := by
  constructor
  · intro h
    refine ⟨by simpa using h.acceptable [] t ts rfl, ?_, fun before u after heq => ?_⟩
    · simpa using h.distinct
    · simpa using h.acceptable (t :: before) u after (by rw [heq]; rfl)
  · rintro ⟨ht, hts⟩
    refine ⟨by simpa using hts.distinct, fun before u after heq => ?_⟩
    cases before with
    | nil =>
      obtain ⟨rfl, -⟩ := List.cons.inj heq
      simpa using ht
    | cons t' before =>
      obtain ⟨rfl, hrest⟩ := List.cons.inj heq
      simpa using hts.acceptable before u after hrest

/-- What is valid after a table and brings a part brings no name of the table. -/
theorem Valid.free {more : SymbolTable}
    (h : c.Valid chain unit (table.signature ++ more.signature) ts) (htable : table.Keyed)
    (hmore : more.Keyed) : ∀ name ∈ more.names, name ∉ table.names := by
  have hnodup := h.distinct
  rw [List.map_append, List.map_append, htable.map_signature, hmore.map_signature] at hnodup
  intro name hmem hmem'
  exact (List.nodup_append.mp (List.nodup_append.mp hnodup).1).2.2 name hmem' name hmem rfl

/-- **A run through statements succeeds exactly if they are valid** after the names of the menu
that it starts from. The invariant is that this menu has no name twice. -/
theorem exists_answer_statements_iff (hts : ∀ t ∈ ts, SyntaxTree.IsStatement t)
    (hm : m.symbols.Keyed) :
    (∃ m', (ts.foldlM (c.statement (c.compileNested c.limit)) m).answer chain = .ok m') ↔
      c.Valid chain m.unit m.symbols.signature ts := by
  induction ts generalizing m with
  | nil =>
    rw [valid_nil_iff, hm.map_signature]
    exact ⟨fun _ => hm.nodup, fun _ => ⟨m, rfl⟩⟩
  | cons t ts ih =>
    rw [List.forall_mem_cons] at hts
    rw [List.foldlM_cons, valid_cons_iff, ← exists_adds_iff hts.1 hm]
    simp only [blind_nested.answer_bind_eq_ok_iff blind_statements, answer_statement_eq_ok_iff]
    constructor
    · rintro ⟨m', m₁, ⟨part, hpart, hfree, rfl⟩, hrest⟩
      have hvalid := (ih hts.2 (hm.append hpart.keyed hfree)).mp ⟨m', hrest⟩
      rw [SymbolTable.signature_append, ← hpart.contributed] at hvalid
      exact ⟨⟨part, hpart⟩, hvalid⟩
    · rintro ⟨⟨part, hpart⟩, hvalid⟩
      -- the names of the part are free because the rest is valid after them and the table
      rw [hpart.contributed] at hvalid
      have hfree := hvalid.free hm hpart.keyed
      rw [← SymbolTable.signature_append] at hvalid
      obtain ⟨m', hrest⟩ := (ih (m := ⟨m.unit, m.instructions ++ part.2, m.symbols.append part.1⟩)
        hts.2 (hm.append hpart.keyed hfree)).mpr hvalid
      exact ⟨m', _, ⟨part, hpart, hfree, rfl⟩, hrest⟩

/-- **A run through statements puts their parts one behind the other.** -/
theorem exists_addsAll
    (h : (ts.foldlM (c.statement (c.compileNested c.limit)) m).answer chain = .ok m') :
    ∃ parts, c.AddsAll chain m.unit m.symbols ts parts ∧ m'.unit = m.unit ∧
      m'.symbols.toList = m.symbols.toList ++ parts.flatMap (·.1.toList) ∧
      m'.instructions = m.instructions ++ parts.flatMap (·.2) := by
  induction ts generalizing m with
  | nil =>
    obtain rfl := Except.ok.inj h
    exact ⟨[], .nil, rfl, by simp, by simp⟩
  | cons t ts ih =>
    rw [List.foldlM_cons] at h
    obtain ⟨m₁, ht, h⟩ := (blind_nested.answer_bind_eq_ok_iff blind_statements).mp h
    obtain ⟨part, hpart, -, rfl⟩ := answer_statement_eq_ok_iff.mp ht
    obtain ⟨parts, hparts, hunit, hsymbols, hinstructions⟩ := ih h
    refine ⟨part :: parts, .cons hpart hparts, hunit, ?_, ?_⟩
    · rw [hsymbols, SymbolTable.toList_append, List.append_assoc, List.flatMap_cons]
    · rw [hinstructions, List.append_assoc, List.flatMap_cons]

/-! ### Trees -/

theorem analyze_eq_ok_iff {tree : SyntaxTree} {s : Session} :
    (∃ s', c.analyze unit (some tree) s = .ok m s') ↔
      (tree.children.foldlM (c.statement (c.compileNested c.limit)) (.blank unit)).answer s.chain =
        .ok m := by
  have hfinish : ∀ m : Menu, Blind (record (.analyzed unit m.instructions.length m.symbols.size) >>=
      fun _ => pure m) := fun _ => blind_record.bind fun _ => blind_pure
  have hblind : Blind (c.analyze unit (some tree)) :=
    blind_analyzeWith (blind_compileNested c.limit)
  rw [← hblind.answer_eq_ok_iff]
  refine ((blind_statements _).answer_bind_eq_ok_iff hfinish).trans ?_
  constructor
  · rintro ⟨n, hn, heq⟩
    exact hn.trans heq
  · intro hm
    exact ⟨m, hm, rfl⟩

/-- **Static semantics**: a tree with the shape of a program is compiled exactly if its statements
are valid, whatever else is open, and what comes out are the parts that the statements add, one
behind the other. -/
theorem analyze_valid (c : Compiler) (unit : Path) {tree : SyntaxTree} (hshape : tree.WellShaped)
    (s : Session) :
    ((∃ m s', c.analyze unit (some tree) s = .ok m s') ↔
      c.Valid s.chain unit [] tree.children) ∧
    ∀ m s', c.analyze unit (some tree) s = .ok m s' → m.unit = unit ∧
      ∃ parts, c.AddsAll s.chain unit .empty tree.children parts ∧
        m.symbols.toList = parts.flatMap (·.1.toList) ∧
        m.instructions = parts.flatMap (·.2) := by
  simp only [analyze_eq_ok_iff]
  refine ⟨exists_answer_statements_iff hshape SymbolTable.keyed_empty, fun m s' h => ?_⟩
  obtain ⟨parts, hparts, hunit, hsymbols, hinstructions⟩ :=
    exists_addsAll (analyze_eq_ok_iff.mp ⟨s', h⟩)
  exact ⟨hunit, parts, hparts, hsymbols, hinstructions⟩

/-- The small supply has what is ordered, but not for a unit of which it is a part. -/
theorem analyze_valid_pantry :
    ∃ tree, IsProgram ⟨"main.pf"⟩ pantryOrder tree ∧ tree.WellShaped ∧
      pantry.Valid [] ⟨"main.pf"⟩ [] tree.children ∧
      ¬pantry.Valid [⟨"base.pf"⟩] ⟨"main.pf"⟩ [] tree.children := by
  have h : (forestOf ⟨"main.pf"⟩ pantryOrder).toOption.any (fun f =>
      Stateful.yields (pantry.analyze ⟨"main.pf"⟩ f.tree? (.ofChain [])) (fun _ _ => true) &&
      Stateful.fails (pantry.analyze ⟨"main.pf"⟩ f.tree? (.ofChain [⟨"base.pf"⟩]))
        fun _ => true) = true := by
    decide +kernel
  cases hf : forestOf ⟨"main.pf"⟩ pantryOrder with
  | error e =>
    rw [hf] at h
    cases h
  | ok f =>
    rw [hf] at h
    obtain ⟨hyields, hfails⟩ := (Bool.and_eq_true _ _).mp h
    obtain ⟨m, s, hrun, -⟩ := Stateful.exists_of_yields hyields
    obtain ⟨e, s', hstop, -⟩ := Stateful.exists_of_fails hfails
    obtain ⟨tree, -, htree, -⟩ := analyze_sound hrun
    have hprogram : IsProgram ⟨"main.pf"⟩ pantryOrder tree := ⟨f, hf, htree⟩
    have hshape := hprogram.wellShaped
    rw [htree] at hrun hstop
    refine ⟨tree, hprogram, hshape, ?_, fun hvalid => ?_⟩
    · exact (analyze_valid pantry ⟨"main.pf"⟩ hshape (.ofChain [])).1.mp ⟨m, s, hrun⟩
    · obtain ⟨m', s'', hrun'⟩ :=
        (analyze_valid pantry ⟨"main.pf"⟩ hshape (.ofChain [⟨"base.pf"⟩])).1.mpr hvalid
      exact absurd (hstop.symm.trans hrun') nofun

end Compiler

end PizzaLang
