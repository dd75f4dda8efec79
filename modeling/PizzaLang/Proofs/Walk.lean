import PizzaLang.Compile.Unit

/-!
# Walks through a program and what it includes

A program is spread over units. A *walk* goes through the statements of a unit in order; at
an inclusion it enters the unit that is located and goes through the statements of that one
before it goes on. What it passes is a list of visits: the units that it enters, and the
definitions and orders that it meets, each with the unit it stands in.

Nothing here depends on what the statements mean. A walk asks only which unit an inclusion
locates, what the text of that unit is, and which tree the text has.
-/

namespace PizzaLang

/-- **What a walk passes.** -/
inductive Visit
  /-- A unit is entered. -/
  | unit (id : Path)
  /-- A statement of a unit is met. -/
  | statement (unit : Path) (t : SyntaxTree)

namespace Visit

/-- The unit that is entered. -/
def unit? : Visit → Option Path
  | unit id => some id
  | statement _ _ => none

/-- The statement that is met, with its unit. -/
def statement? : Visit → Option (Path × SyntaxTree)
  | unit _ => none
  | statement id t => some (id, t)

end Visit

/-- The units that a walk enters, in order. -/
def unitsOf (walk : List Visit) : List Path := walk.filterMap Visit.unit?

/-- The statements that a walk meets, in order. -/
def statementsOf (walk : List Visit) : List (Path × SyntaxTree) := walk.filterMap Visit.statement?

@[simp] theorem unitsOf_nil : unitsOf [] = [] := rfl

@[simp] theorem unitsOf_unit (id : Path) (walk : List Visit) :
    unitsOf (.unit id :: walk) = id :: unitsOf walk := rfl

@[simp] theorem unitsOf_statement (unit : Path) (t : SyntaxTree) (walk : List Visit) :
    unitsOf (.statement unit t :: walk) = unitsOf walk := rfl

@[simp] theorem unitsOf_append (v w : List Visit) : unitsOf (v ++ w) = unitsOf v ++ unitsOf w :=
  List.filterMap_append

@[simp] theorem statementsOf_nil : statementsOf [] = [] := rfl

@[simp] theorem statementsOf_unit (id : Path) (walk : List Visit) :
    statementsOf (.unit id :: walk) = statementsOf walk := rfl

@[simp] theorem statementsOf_statement (unit : Path) (t : SyntaxTree) (walk : List Visit) :
    statementsOf (.statement unit t :: walk) = (unit, t) :: statementsOf walk := rfl

@[simp] theorem statementsOf_append (v w : List Visit) :
    statementsOf (v ++ w) = statementsOf v ++ statementsOf w :=
  List.filterMap_append

/-- **The text of a unit has this tree.** -/
def IsProgram (unit : Path) (text : String) (tree : SyntaxTree) : Prop :=
  ∃ forest, forestOf unit text = .ok forest ∧ forest.tree? = some tree

theorem IsProgram.unique {unit : Path} {text : String} {tree tree' : SyntaxTree}
    (h : IsProgram unit text tree) (h' : IsProgram unit text tree') : tree = tree' := by
  obtain ⟨f, hf, ht⟩ := h
  obtain ⟨f', hf', ht'⟩ := h'
  obtain rfl := Except.ok.inj (hf.symm.trans hf')
  exact Option.some.inj (ht.symm.trans ht')

namespace Sources

/-- **An inclusion leads to a unit**: the statement `t`, standing in `unit`, locates `id`, and
the text of `id` has the tree `tree`. -/
def Includes (sources : Sources) (unit : Path) (t : SyntaxTree) (id : Path) (tree : SyntaxTree) :
    Prop :=
  ∃ path text, t.child 0 = .ok path ∧
    sources.locate ⟨s!"{path.value}.{sourceExtension}"⟩ (some unit) = .ok id ∧
    sources.load id = .ok text ∧ IsProgram id text tree

/-- **A walk** through statements of a unit and through all that they include, depth first. -/
inductive Walk (sources : Sources) : Path → List SyntaxTree → List Visit → Prop
  /-- There is nothing to walk through. -/
  | done {unit : Path} : Walk sources unit [] []
  /-- A definition or an order is met. -/
  | meet {unit : Path} {t : SyntaxTree} {ts : List SyntaxTree} {walk : List Visit} :
      t.kind = .definition ∨ t.kind = .make → Walk sources unit ts walk →
      Walk sources unit (t :: ts) (.statement unit t :: walk)
  /-- An inclusion is replaced by a walk through the unit it leads to. -/
  | enter {unit id : Path} {t tree : SyntaxTree} {ts : List SyntaxTree}
      {inner walk : List Visit} :
      t.kind = .inclusion → sources.Includes unit t id tree →
      Walk sources id tree.children inner → Walk sources unit ts walk →
      Walk sources unit (t :: ts) (.unit id :: (inner ++ walk))

/-- A walk through the unit with this text, which is not itself among the units entered. -/
def WalkOf (sources : Sources) (unit : Path) (text : String) (walk : List Visit) : Prop :=
  ∃ tree, IsProgram unit text tree ∧ sources.Walk unit tree.children walk

variable {sources : Sources} {unit : Path} {ts : List SyntaxTree} {walk walk' : List Visit}

theorem Includes.unique {t tree tree' : SyntaxTree} {id id' : Path}
    (h : sources.Includes unit t id tree) (h' : sources.Includes unit t id' tree') :
    id = id' ∧ tree = tree' := by
  obtain ⟨path, text, hpath, hid, htext, htree⟩ := h
  obtain ⟨path', text', hpath', hid', htext', htree'⟩ := h'
  obtain rfl := Except.ok.inj (hpath.symm.trans hpath')
  obtain rfl := Except.ok.inj (hid.symm.trans hid')
  obtain rfl := Except.ok.inj (htext.symm.trans htext')
  exact ⟨rfl, htree.unique htree'⟩

/-- **There is only one walk** through given statements. -/
theorem Walk.unique (h : sources.Walk unit ts walk) (h' : sources.Walk unit ts walk') :
    walk = walk' := by
  induction h generalizing walk' with
  | done =>
    cases h'
    rfl
  | meet hkind _ ih =>
    cases h' with
    | meet _ hrest => rw [ih hrest]
    | enter hincl => simp [hincl] at hkind
  | enter hincl hto _ _ ihinner ihrest =>
    cases h' with
    | meet hkind => simp [hincl] at hkind
    | enter _ hto' hinner hrest =>
      obtain ⟨rfl, rfl⟩ := hto.unique hto'
      rw [ihinner hinner, ihrest hrest]

theorem WalkOf.unique {text : String} (h : sources.WalkOf unit text walk)
    (h' : sources.WalkOf unit text walk') : walk = walk' := by
  obtain ⟨tree, htree, hwalk⟩ := h
  obtain ⟨tree', htree', hwalk'⟩ := h'
  obtain rfl := htree.unique htree'
  exact hwalk.unique hwalk'

end Sources

end PizzaLang
