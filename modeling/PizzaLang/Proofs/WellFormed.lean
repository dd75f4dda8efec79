import PizzaLang.Proofs.Elaboration

/-!
# Menus are closed

A menu that comes out of a compilation can be read without looking anything up twice: what a
pizza or a specialty is made of is, piece by piece, what the table of the same menu binds to
the names. There is no check of that at the end. It holds because every portion is taken from
the table of the unit that it is written in, because that table only ever grows at its end,
and because it is merged into another one only where no name is bound in both – so that a
portion of an included unit still finds its ingredient in every table that the unit ends up
in.

* `PizzaLang.Menu.WellFormed`: what holds of a menu;
* `PizzaLang.Menu.WellFormed.elaborates`: a successful compilation keeps it;
* `PizzaLang.Compiler.wellFormed_menu`: every menu of a unit, or of a tree, has it.
-/

namespace PizzaLang

/-- **A menu is closed and well formed.** -/
structure Menu.WellFormed (m : Menu) : Prop where
  /-- No name is bound twice, and each declaration is under its own name. -/
  keyed : m.symbols.Keyed
  /-- Every ingredient is drawn as a square with an area. -/
  square : ∀ i, Symbol.ingredient i ∈ m.symbols.toList →
    i.size.width = i.size.height ∧ 0 < i.size.height
  /-- Every specialty is made from the table. -/
  specialties : ∀ p, Symbol.specialty p ∈ m.symbols.toList → m.symbols.Covers p.portions
  /-- Every pizza is made from the table. -/
  pizzas : ∀ i ∈ m.instructions, m.symbols.Serves i.pizza

namespace SymbolTable

theorem mem_toList_append {t other : SymbolTable} {s : Symbol} :
    s ∈ (t.append other).toList ↔ s ∈ t.toList ∨ s ∈ other.toList := by
  rw [toList_append, List.mem_append]

theorem mem_toList_only {s s' : Symbol} : s' ∈ (only s).toList ↔ s' = s := by
  simp [toList, only, Listing.values]

end SymbolTable

namespace Menu.WellFormed

variable {c : Compiler} {m n : Menu}

theorem blank (unit : Path) : (Menu.blank unit).WellFormed where
  keyed := SymbolTable.keyed_empty
  square := by simp [Menu.blank, SymbolTable.empty, SymbolTable.toList, Listing.values]
  specialties := by simp [Menu.blank, SymbolTable.empty, SymbolTable.toList, Listing.values]
  pizzas := by simp [Menu.blank]

/-- A definition keeps a menu well formed: what it declares is made from the table before it,
and so from the table with it. -/
theorem define (h : m.WellFormed) {d : SyntaxTree} {s : Symbol}
    (hs : c.Declares m.unit m.symbols d s) (hfree : s.name ∉ m.symbols.names) :
    { m with symbols := m.symbols.append (.only s) : Menu }.WellFormed := by
  have hw : m.symbols.Within (m.symbols.append (.only s)) := SymbolTable.within_append_left
  refine ⟨h.keyed.append SymbolTable.keyed_only ?_, fun i hi => ?_, fun p hp => ?_,
    fun i hi => (h.pizzas i hi).mono hw⟩
  · intro name hname
    obtain rfl := List.mem_singleton.mp hname
    exact hfree
  · rcases SymbolTable.mem_toList_append.mp hi with hi | hi
    · exact h.square i hi
    · obtain rfl := SymbolTable.mem_toList_only.mp hi
      cases hs with
      | ingredient _ _ _ _ hi => exact (of_ingredientOf hi).2
  · rcases SymbolTable.mem_toList_append.mp hp with hp | hp
    · exact (h.specialties p hp).mono hw
    · obtain rfl := SymbolTable.mem_toList_only.mp hp
      cases hs with
      | specialty _ hp => exact (SymbolTable.covers_of_specialtyOf h.keyed hp).mono hw

theorem order (h : m.WellFormed) {t : SyntaxTree} {pizza : Pizza}
    (hpizza : m.symbols.pizzaOf t = .ok pizza) :
    { m with instructions := m.instructions ++ [⟨t.position, pizza⟩] : Menu }.WellFormed := by
  refine ⟨h.keyed, h.square, h.specialties, fun i hi => ?_⟩
  rcases List.mem_append.mp hi with hi | hi
  · exact h.pizzas i hi
  · obtain rfl := List.mem_singleton.mp hi
    exact SymbolTable.serves_of_pizzaOf h.keyed hpizza

/-- An inclusion keeps a menu well formed: both tables keep their meaning in the table that
they are merged into. -/
theorem absorb (h : m.WellFormed) (hn : n.WellFormed)
    (hdis : ∀ name ∈ n.symbols.names, name ∉ m.symbols.names) :
    { m with
      instructions := m.instructions ++ n.instructions
      symbols := m.symbols.append n.symbols : Menu }.WellFormed := by
  have hleft : m.symbols.Within (m.symbols.append n.symbols) := SymbolTable.within_append_left
  have hright : n.symbols.Within (m.symbols.append n.symbols) :=
    SymbolTable.within_append_right hdis
  refine ⟨h.keyed.append hn.keyed hdis, fun i hi => ?_, fun p hp => ?_, fun i hi => ?_⟩
  · rcases SymbolTable.mem_toList_append.mp hi with hi | hi
    · exact h.square i hi
    · exact hn.square i hi
  · rcases SymbolTable.mem_toList_append.mp hp with hp | hp
    · exact (h.specialties p hp).mono hleft
    · exact (hn.specialties p hp).mono hright
  · rcases List.mem_append.mp hi with hi | hi
    · exact (h.pizzas i hi).mono hleft
    · exact (hn.pizzas i hi).mono hright

/-- **A successful compilation keeps a menu well formed**, through all the units that it
goes into. -/
theorem elaborates {chain : List Path} {ts : List SyntaxTree} {walk : List Visit}
    (hm : m.WellFormed) (h : c.Elaborates chain m ts n walk) : n.WellFormed := by
  induction h with
  | done => exact hm
  | define _ _ hs hfree _ ih => exact ih (hm.define hs hfree)
  | order _ hpizza _ ih => exact ih (hm.order hpizza)
  | enter _ _ _ _ hdis _ ihinner ih => exact ih (hm.absorb (ihinner (blank _)) hdis)

end Menu.WellFormed

namespace Compiler

/-- **Every menu is closed and well formed**: the one that a unit compiles to, whatever it
includes, and the one of any tree at all that is taken for that of a unit, whatever units are
open already. -/
theorem wellFormed_menu (c : Compiler) (unit : Path) :
    (∀ text s m s', c.compileUnit unit text s = .ok m s' → m.WellFormed) ∧
      ∀ tree s m s', c.analyze unit tree s = .ok m s' → m.WellFormed := by
  constructor
  · intro text s m s' h
    obtain ⟨tree, walk, -, hmade, -⟩ := compileNested_sound h
    exact (Menu.WellFormed.blank unit).elaborates hmade
  · intro tree s m s' h
    obtain ⟨t, walk, -, hmade⟩ := analyze_sound h
    exact (Menu.WellFormed.blank unit).elaborates hmade

/-- The specialty of one unit on pizzas of two others, and a tree that no program has. -/
theorem wellFormed_menu_pantry :
    (∃ m s', pantry.compileUnit ⟨"main.pf"⟩ pantryOrder (.ofChain []) = .ok m s' ∧
      m.symbols.names = ["ham", "hot"] ∧ m.instructions.length = 2 ∧ m.WellFormed) ∧
    ∃ m s', pantry.analyze ⟨"main.pf"⟩
        (some (.node ⟨.number, "", default⟩ [.node ⟨.inclusion, "", default⟩
          [.node ⟨.saveAs, "base", default⟩ []]])) (.ofChain [⟨"top.pf"⟩]) = .ok m s' ∧
      m.symbols.names = ["ham", "hot"] ∧ m.WellFormed := by
  constructor
  · obtain ⟨m, s', hm, hnames, hlength, -⟩ := pantryOrder_compiles
    exact ⟨m, s', hm, hnames, hlength, (wellFormed_menu _ _).1 _ _ _ _ hm⟩
  · have h : Stateful.yields (pantry.analyze ⟨"main.pf"⟩
        (some (.node ⟨.number, "", default⟩ [.node ⟨.inclusion, "", default⟩
          [.node ⟨.saveAs, "base", default⟩ []]])) (.ofChain [⟨"top.pf"⟩]))
        (fun m _ => m.symbols.names = ["ham", "hot"]) = true := by
      decide +kernel
    obtain ⟨m, s', hm, htest⟩ := Stateful.exists_of_yields h
    exact ⟨m, s', hm, of_decide_eq_true htest, (wellFormed_menu _ _).2 _ _ _ _ hm⟩

end Compiler

end PizzaLang
