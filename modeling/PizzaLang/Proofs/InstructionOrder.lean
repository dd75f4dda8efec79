import PizzaLang.Proofs.Elaboration
import PizzaLang.Proofs.Placement

/-!
# The order of instructions

A compilation adds the instructions of an included unit where the inclusion stands, behind those
that are there already. So the instructions of a menu are the orders of the unit and of all that it
includes, as a walk meets them (`PizzaLang.Compiler.Elaborates.declaredAt`).

It would be another order to have those of included units first and those of the unit itself after
them. The two agree exactly if no order of the unit stands before an inclusion that leads to an
order, in the unit that is included or further down (`PizzaLang.Sources.Brings`). This is
`PizzaLang.Compiler.included_first_iff`; a text for which they differ is in
`PizzaLang.Compiler.included_not_first`.
-/

namespace PizzaLang

/-- **Instructions of other units come first**: none of them stands behind one of the unit. -/
def OthersFirst (unit : Path) (instructions : List Instruction) : Prop :=
  instructions.Pairwise fun i j => i.declaredAt.unit = unit → j.declaredAt.unit = unit

theorem othersFirst_iff {unit : Path} {instructions : List Instruction} :
    OthersFirst unit instructions ↔
      (instructions.map (·.declaredAt.unit)).Pairwise fun p q => p = unit → q = unit := by
  rw [OthersFirst, List.pairwise_map]

theorem IsProgram.position_unit {unit : Path} {text : String} {tree t : SyntaxTree}
    (h : IsProgram unit text tree) (ht : t ∈ tree.children) : t.position.unit = unit :=
  (h.placedIn ht).position.unit

/-! ### Orders along a walk -/

/-- The orders that a walk meets, each with its unit. -/
def ordersOf (walk : List Visit) : List (Path × SyntaxTree) :=
  (statementsOf walk).filter fun p => p.2.kind = .make

@[simp] theorem ordersOf_nil : ordersOf [] = [] := rfl

theorem ordersOf_make {unit : Path} {t : SyntaxTree} {walk : List Visit} (h : t.kind = .make) :
    ordersOf (.statement unit t :: walk) = (unit, t) :: ordersOf walk :=
  List.filter_cons_of_pos (decide_eq_true h)

theorem ordersOf_definition {unit : Path} {t : SyntaxTree} {walk : List Visit}
    (h : t.kind = .definition) : ordersOf (.statement unit t :: walk) = ordersOf walk :=
  List.filter_cons_of_neg (by simp [h])

@[simp] theorem ordersOf_unit (id : Path) (inner walk : List Visit) :
    ordersOf (.unit id :: (inner ++ walk)) = ordersOf inner ++ ordersOf walk := by
  simp [ordersOf]

/-- **An inclusion brings an order**: the unit that it leads to has one, or has an inclusion that
brings one. -/
inductive Sources.Brings (sources : Sources) : Path → SyntaxTree → Prop
  | order {unit id : Path} {t tree u : SyntaxTree} : sources.Includes unit t id tree →
      u ∈ tree.children → u.kind = .make → Brings sources unit t
  | inside {unit id : Path} {t tree u : SyntaxTree} : sources.Includes unit t id tree →
      u ∈ tree.children → u.kind = .inclusion → Brings sources id u → Brings sources unit t

namespace Sources

variable {sources : Sources} {unit id : Path} {t tree : SyntaxTree} {ts : List SyntaxTree}
  {walk : List Visit}

theorem Includes.brings_iff (h : sources.Includes unit t id tree) : sources.Brings unit t ↔
    ∃ u : SyntaxTree, u ∈ tree.children ∧
      (u.kind = .make ∨ u.kind = .inclusion ∧ sources.Brings id u) := by
  constructor
  · intro hbrings
    cases hbrings with
    | @order _ _ _ _ u h' hu hkind =>
      obtain ⟨rfl, rfl⟩ := h.unique h'
      exact ⟨u, hu, Or.inl hkind⟩
    | @inside _ _ _ _ u h' hu hkind hbrings =>
      obtain ⟨rfl, rfl⟩ := h.unique h'
      exact ⟨u, hu, Or.inr ⟨hkind, hbrings⟩⟩
  · rintro ⟨u, hu, hkind | ⟨hkind, hbrings⟩⟩
    · exact .order h hu hkind
    · exact .inside h hu hkind hbrings

/-- **A walk meets an order** if there is one among the statements, or an inclusion among them
brings one. -/
theorem Walk.ordersOf_ne_nil_iff (h : sources.Walk unit ts walk) : ordersOf walk ≠ [] ↔
    ∃ u ∈ ts, u.kind = .make ∨ u.kind = .inclusion ∧ sources.Brings unit u := by
  induction h with
  | done => simp
  | @meet unit t ts walk hkind _ ih =>
    rcases hkind with hkind | hkind
    · rw [ordersOf_definition hkind, ih]
      simp [hkind]
    · simp [ordersOf_make hkind, hkind]
  | @enter unit id t tree ts inner walk hkind hto _ _ ihinner ih =>
    rw [ordersOf_unit, ne_eq, List.append_eq_nil_iff, not_and_or, ← ne_eq, ← ne_eq, ihinner, ih,
      ← hto.brings_iff]
    simp [hkind]

/-- A walk through the statements of a program knows where they stand. -/
theorem Walk.position_unit (h : sources.Walk unit ts walk)
    (hts : ∀ t : SyntaxTree, t ∈ ts → t.position.unit = unit) :
    ∀ p ∈ statementsOf walk, p.2.position.unit = p.1 := by
  induction h with
  | done => exact fun p hp => absurd hp List.not_mem_nil
  | meet _ _ ih =>
    rw [List.forall_mem_cons] at hts
    rw [statementsOf_statement, List.forall_mem_cons]
    exact ⟨hts.1, ih hts.2⟩
  | enter _ hto _ _ ihinner ih =>
    obtain ⟨-, text, -, -, -, hprogram⟩ := hto
    rw [List.forall_mem_cons] at hts
    rw [statementsOf_unit, statementsOf_append, List.forall_mem_append]
    exact ⟨ihinner fun t ht => hprogram.position_unit ht, ih hts.2⟩

end Sources

namespace Compiler

variable {c : Compiler} {chain : List Path} {m m' : Menu} {ts : List SyntaxTree}
  {walk : List Visit}

/-- **Instructions are added in the order of the walk.** -/
theorem Elaborates.declaredAt (h : c.Elaborates chain m ts m' walk) :
    m'.instructions.map (·.declaredAt) =
      m.instructions.map (·.declaredAt) ++ (ordersOf walk).map (·.2.position) := by
  induction h with
  | done => simp
  | define hkind _ _ _ _ ih => rw [ih, ordersOf_definition hkind]
  | order hkind _ _ ih => simp [ih, ordersOf_make hkind]
  | enter _ _ _ _ _ _ ihinner ih =>
    rw [ih, ordersOf_unit, List.map_append, List.map_append, ihinner, List.append_assoc]
    rfl

/-- What is met while a unit is open does not stand in that unit, unless it is the one whose
statements are worked on. -/
theorem Elaborates.outside (h : c.Elaborates chain m ts m' walk) {p : Path} (hp : p ∈ chain)
    (hm : ¬m.unit.Same p) : ∀ q ∈ statementsOf walk, q.1 ≠ p := by
  induction h with
  | done => exact fun q hq => absurd hq List.not_mem_nil
  | define _ _ _ _ _ ih =>
    rw [statementsOf_statement, List.forall_mem_cons]
    exact ⟨fun heq => hm (congrArg Path.components heq), ih hp hm⟩
  | order _ _ _ ih =>
    rw [statementsOf_statement, List.forall_mem_cons]
    exact ⟨fun heq => hm (congrArg Path.components heq), ih hp hm⟩
  | enter _ _ hopen _ _ _ ihinner ih =>
    rw [statementsOf_unit, statementsOf_append, List.forall_mem_append]
    exact ⟨ihinner (List.mem_cons_of_mem _ hp) (hopen p (List.mem_cons_of_mem _ hp)), ih hp hm⟩

/-- Orders of a unit that is entered do not stand in a unit that is open. -/
theorem Elaborates.foreign {id p : Path} {tree : SyntaxTree} {n : Menu} {inner : List Visit}
    (h : c.Elaborates (id :: chain) (.blank id) tree.children n inner) (hp : p ∈ chain)
    (hopen : ¬id.Same p) : ∀ q ∈ ordersOf inner, q.1 ≠ p :=
  fun q hq => h.outside (List.mem_cons_of_mem _ hp) hopen q (List.mem_of_mem_filter hq)

/-- **All orders are those of the unit** exactly if no inclusion brings any. -/
theorem Elaborates.own_iff (h : c.Elaborates chain m ts m' walk) (hm : m.unit ∈ chain) :
    (∀ p ∈ ordersOf walk, p.1 = m.unit) ↔
      ∀ u : SyntaxTree, u ∈ ts → u.kind = .inclusion → ¬c.sources.Brings m.unit u := by
  induction h with
  | done => simp
  | define hkind _ _ _ _ ih =>
    rw [ordersOf_definition hkind, List.forall_mem_cons]
    refine (ih hm).trans (iff_and_self.mpr fun _ hincl => ?_)
    simp [hkind] at hincl
  | order hkind _ _ ih =>
    rw [ordersOf_make hkind, List.forall_mem_cons, List.forall_mem_cons]
    refine and_congr (iff_of_true rfl fun hincl => ?_) (ih hm)
    simp [hkind] at hincl
  | @enter chain m n m' t tree ts id inner walk hkind hto hopen hinner _ _ _ ih =>
    rw [ordersOf_unit, List.forall_mem_append, List.forall_mem_cons]
    refine and_congr ?_ (ih hm)
    have hforeign := hinner.foreign hm (hopen _ List.mem_cons_self)
    have hbrings : c.sources.Brings m.unit t ↔ ordersOf inner ≠ [] :=
      hto.brings_iff.trans hinner.toWalk.ordersOf_ne_nil_iff.symm
    rw [hbrings, not_ne_iff]
    constructor
    · intro hown _
      exact List.eq_nil_iff_forall_not_mem.mpr fun p hp => hforeign p hp (hown p hp)
    · intro hnil p hp
      rw [hnil hkind] at hp
      cases hp

/-- **Orders of other units come first** exactly if no order stands before an inclusion that brings
one. -/
theorem Elaborates.pairwise_iff (h : c.Elaborates chain m ts m' walk) (hm : m.unit ∈ chain) :
    (ordersOf walk).Pairwise (fun p q => p.1 = m.unit → q.1 = m.unit) ↔
      ts.Pairwise fun (t u : SyntaxTree) =>
        t.kind = .make → u.kind = .inclusion → ¬c.sources.Brings m.unit u := by
  induction h with
  | done => simp
  | define hkind _ _ _ _ ih =>
    rw [ordersOf_definition hkind, List.pairwise_cons]
    refine (ih hm).trans (iff_and_self.mpr fun _ u _ hmake => ?_)
    simp [hkind] at hmake
  | order hkind _ hrest ih =>
    -- what stands behind the order has to be the unit's own
    rw [ordersOf_make hkind, List.pairwise_cons, List.pairwise_cons]
    refine and_congr ?_ (ih hm)
    simp only [true_imp_iff, hkind]
    exact hrest.own_iff hm
  | @enter chain m n m' t tree ts id inner walk hkind hto hopen hinner _ _ _ ih =>
    -- what the inclusion brings may stand before anything
    have hforeign := hinner.foreign hm (hopen _ List.mem_cons_self)
    have hinside : ∀ p ∈ ordersOf inner, ∀ q : Path × SyntaxTree, p.1 = m.unit → q.1 = m.unit :=
      fun p hp q hown => absurd hown (hforeign p hp)
    rw [ordersOf_unit, List.pairwise_append, List.pairwise_cons]
    constructor
    · rintro ⟨-, hwalk, -⟩
      refine ⟨fun u _ hmake => ?_, (ih hm).mp hwalk⟩
      simp [hkind] at hmake
    · rintro ⟨-, hts⟩
      exact ⟨List.pairwise_of_forall_mem_list fun p hp q _ => hinside p hp q, (ih hm).mpr hts,
        fun p hp q _ => hinside p hp q⟩

/-- **Where instructions come from.** A text is compiled to the orders that a walk through it meets,
each at its position, so those of an included unit stand where the inclusion does. They come before
all those of the text itself exactly if no order of the text stands before an inclusion that brings
an order. -/
theorem included_first_iff (c : Compiler) {unit : Path} {text : String} {s s' : Session}
    (h : c.compileUnit unit text s = .ok m s') :
    ∃ tree walk, IsProgram unit text tree ∧ c.sources.Walk unit tree.children walk ∧
      m.instructions.map (·.declaredAt) = (ordersOf walk).map (·.2.position) ∧
      (OthersFirst unit m.instructions ↔ tree.children.Pairwise fun (t u : SyntaxTree) =>
        t.kind = .make → u.kind = .inclusion → ¬c.sources.Brings unit u) := by
  obtain ⟨tree, walk, htree, hmade, -⟩ := compileNested_sound h
  have hwalk : c.sources.Walk unit tree.children walk := hmade.toWalk
  have hinstructions := hmade.declaredAt
  refine ⟨tree, walk, htree, hwalk, hinstructions, ?_⟩
  have hunits : m.instructions.map (·.declaredAt.unit) = (ordersOf walk).map (·.1) := by
    have hplaced := hwalk.position_unit fun t ht => htree.position_unit ht
    calc m.instructions.map (·.declaredAt.unit)
        = (m.instructions.map (·.declaredAt)).map (·.unit) := by rw [List.map_map]; rfl
      _ = (ordersOf walk).map (·.2.position.unit) := by rw [hinstructions]; simp [Menu.blank]
      _ = (ordersOf walk).map (·.1) :=
        List.map_congr_left fun p hp => hplaced p (List.mem_of_mem_filter hp)
  rw [othersFirst_iff, hunits, List.pairwise_map]
  exact hmade.pairwise_iff List.mem_cons_self

/-- An order before an inclusion that brings one. -/
def lateInclusion : String :=
  "define ingredient Egg('ham.png'); make big pizza add egg(1); include 'menu';"

theorem lateInclusion_compiles :
    ∃ m s', pantry.compileUnit ⟨"main.pf"⟩ lateInclusion (.ofChain []) = .ok m s' ∧
      ¬OthersFirst ⟨"main.pf"⟩ m.instructions := by
  have h : Stateful.yields (pantry.compileUnit ⟨"main.pf"⟩ lateInclusion (.ofChain []))
      (fun m _ => m.instructions.map (·.declaredAt.unit) = [⟨"main.pf"⟩, ⟨"menu.pf"⟩]) = true := by
    decide +kernel
  obtain ⟨m, s', hm, htest⟩ := Stateful.exists_of_yields h
  refine ⟨m, s', hm, ?_⟩
  rw [othersFirst_iff, of_decide_eq_true htest]
  decide

/-- The text has an order before an inclusion that brings one. -/
theorem included_first_iff_lateInclusion :
    ∃ m s' tree, pantry.compileUnit ⟨"main.pf"⟩ lateInclusion (.ofChain []) = .ok m s' ∧
      IsProgram ⟨"main.pf"⟩ lateInclusion tree ∧
      ¬tree.children.Pairwise fun (t u : SyntaxTree) =>
        t.kind = .make → u.kind = .inclusion → ¬pantry.sources.Brings ⟨"main.pf"⟩ u := by
  obtain ⟨m, s', hm, hlate⟩ := lateInclusion_compiles
  obtain ⟨tree, walk, htree, -, -, hiff⟩ := included_first_iff pantry hm
  exact ⟨m, s', tree, hm, htree, mt hiff.mpr hlate⟩

/-- **Instructions of included units do not always come first.** -/
theorem included_not_first :
    ¬∀ (c : Compiler) (unit : Path) (text : String) (s : Session) (m : Menu) (s' : Session),
      c.compileUnit unit text s = .ok m s' → OthersFirst unit m.instructions := by
  intro hfirst
  obtain ⟨m, s', hm, hlate⟩ := lateInclusion_compiles
  exact hlate (hfirst _ _ _ _ _ _ hm)

end Compiler

end PizzaLang
