import PizzaLang.Meaning.Statement

/-!
# The meaning of statements does not look at positions

Positions go from tokens to nodes, and from nodes into symbols, instructions and errors, where they
are reported. On the way nothing looks at them: nothing is compared, ordered or looked up by its
position. So if all positions are changed by some function, whatever it is, then the meaning of a
statement is the same with its positions changed in the same way.

`reposition f` changes the positions in a value by the function `f`. There is one such operation for
each type that has positions, and for each function of the meaning there is a lemma that says that
the two commute, up to `PizzaLang.SymbolTable.pizzaOf_reposition`,
`PizzaLang.SymbolTable.specialtyOf_reposition` and `PizzaLang.ingredientOf_reposition`.
-/

namespace PizzaLang

/-! ### Results -/

namespace Fallible

variable {α β γ δ ε ε' : Type} {g : ε → ε'} {h : α → β} {x : Except ε α}

/-- Changes what comes out, whether it is a result or an error. -/
def bimap (g : ε → ε') (h : α → β) : Except ε α → Except ε' β
  | .ok a => .ok (h a)
  | .error e => .error (g e)

/-- A sequence commutes with a change if its second part does. -/
theorem bind_bimap {k : β → Except ε' δ} {k' : α → Except ε γ} {h' : γ → δ}
    (hk : ∀ a, k (h a) = bimap g h' (k' a)) : (bimap g h x >>= k) = bimap g h' (x >>= k') := by
  cases x with
  | ok a => exact hk a
  | error e => rfl

/-- Sequences look the same if their first parts do, and their second parts do after results that
look the same. -/
theorem bimap_bind_congr {x' : Except ε α} {k k' : α → Except ε γ} {h' : γ → δ}
    (hx : bimap g h x = bimap g h x')
    (hk : ∀ a a', h a = h a' → bimap g h' (k a) = bimap g h' (k' a')) :
    bimap g h' (x >>= k) = bimap g h' (x' >>= k') := by
  cases x with
  | ok a =>
    cases x' with
    | ok a' => exact hk a a' (Except.ok.inj hx)
    | error e' => cases hx
  | error e =>
    cases x' with
    | ok a' => cases hx
    | error e' => exact congrArg Except.error (Except.error.inj hx)

/-- A fold commutes with a change if its step does. -/
theorem foldlM_bimap {u : α → γ} {v : β → δ} {step : β → α → Except ε β}
    {step' : δ → γ → Except ε' δ} (hstep : ∀ b a, step' (v b) (u a) = bimap g v (step b a))
    (as : List α) (b : β) : (as.map u).foldlM step' (v b) = bimap g v (as.foldlM step b) := by
  induction as generalizing b with
  | nil => rfl
  | cons a as ih =>
    rw [List.map_cons, List.foldlM_cons, List.foldlM_cons, hstep]
    exact bind_bimap ih

end Fallible

open Fallible

variable (f : Position → Position)

/-! ### Trees -/

/-- Changes the position of a label. -/
def NodeLabel.reposition (l : NodeLabel) : NodeLabel := { l with position := f l.position }

@[simp] theorem NodeLabel.kind_reposition (l : NodeLabel) : (l.reposition f).kind = l.kind := rfl

/-- Changes all positions of an error. -/
def Clash.reposition (c : Clash) : Clash := { c with again := f c.again, first := f c.first }

/-- Changes all positions of an error. -/
def SemanticError.reposition : SemanticError → SemanticError
  | duplicate clash => duplicate (clash.reposition f)
  | undefined kind name position => undefined kind name (f position)
  | kindMismatch name expected found position => kindMismatch name expected found (f position)
  | invalidQuantity name quantity position => invalidQuantity name quantity (f position)
  | emptyImage name position => emptyImage name (f position)
  | unevenImage name size position => unevenImage name size (f position)
  | divisionByZero position => divisionByZero (f position)
  | overflow position => overflow (f position)
  | misfit kind position detail => misfit kind (f position) detail

namespace SyntaxTree

/-- Changes all positions of a tree. -/
def reposition (t : SyntaxTree) : SyntaxTree := t.map (NodeLabel.reposition f)

variable (t : SyntaxTree)

@[simp] theorem kind_reposition : (t.reposition f).kind = t.kind := by
  obtain ⟨l, ts⟩ := t
  rfl

@[simp] theorem value_reposition : (t.reposition f).value = t.value := by
  obtain ⟨l, ts⟩ := t
  rfl

@[simp] theorem position_reposition : (t.reposition f).position = f t.position := by
  obtain ⟨l, ts⟩ := t
  rfl

@[simp] theorem children_reposition :
    (t.reposition f).children = t.children.map (reposition f) := by
  obtain ⟨l, ts⟩ := t
  exact Tree.mapAll_eq_map _ ts

theorem child?_reposition (index : Nat) :
    (t.reposition f).child? index = (t.child? index).map (reposition f) := by
  rw [child?, children_reposition, List.getElem?_map]
  rfl

@[simp] theorem misfit_reposition (detail : Misfit) :
    (t.reposition f).misfit detail = (t.misfit detail).reposition f := by
  rw [misfit, kind_reposition, position_reposition]
  rfl

theorem child_reposition (index : Nat) :
    (t.reposition f).child index =
      bimap (SemanticError.reposition f) (reposition f) (t.child index) := by
  rw [child, child, child?_reposition]
  cases t.child? index with
  | none => exact congrArg _ (misfit_reposition f t _)
  | some child => rfl

/-! ### Quantities -/

theorem inRange_reposition (position : Position) (n : Int) :
    inRange (f position) n = bimap (SemanticError.reposition f) id (inRange position n) := by
  rw [inRange, inRange]
  split
  · rfl
  · rfl

theorem readQuantity_reposition (l : NodeLabel) :
    readQuantity (l.reposition f) =
      bimap (SemanticError.reposition f) id (readQuantity l) := by
  rw [readQuantity, readQuantity, NodeLabel.reposition]
  cases Text.integer? l.value with
  | none => rfl
  | some n => exact inRange_reposition f l.position n

theorem operate_reposition (l : NodeLabel) (x y : Int) :
    operate (l.reposition f) x y = bimap (SemanticError.reposition f) id (operate l x y) := by
  rw [operate, operate, NodeLabel.reposition]
  cases l.kind
  case plus | minus | times => exact inRange_reposition f l.position _
  all_goals
    dsimp only
    split
    · rfl
    · exact inRange_reposition f l.position _

theorem evaluate_reposition :
    (t.reposition f).evaluate = bimap (SemanticError.reposition f) id t.evaluate := by
  -- kinds and children decide which case applies, and these are kept
  fun_induction evaluate t with
  | case1 l ts hkind =>
    rw [reposition, Tree.map, evaluate.eq_def]
    dsimp only
    rw [NodeLabel.kind_reposition, if_pos hkind]
    exact readQuantity_reposition f l
  | case2 l hkind hoperator left right ts ihleft ihright =>
    rw [reposition, Tree.map, evaluate.eq_def]
    dsimp only [Tree.mapAll]
    rw [NodeLabel.kind_reposition, if_neg hkind, if_pos hoperator]
    change (evaluate (reposition f left) >>= fun x => evaluate (reposition f right) >>= fun y =>
      operate (l.reposition f) x y) = _
    rw [ihleft, ihright]
    exact bind_bimap fun x => bind_bimap fun y => operate_reposition f l x y
  | case3 l hkind hoperator left ihleft =>
    rw [reposition, Tree.map, evaluate.eq_def]
    dsimp only [Tree.mapAll]
    rw [NodeLabel.kind_reposition, if_neg hkind, if_pos hoperator]
    change (evaluate (reposition f left) >>= fun _ => _) = _
    rw [ihleft]
    exact bind_bimap fun _ => rfl
  | case4 l hkind hoperator =>
    rw [reposition, Tree.map, evaluate.eq_def]
    dsimp only [Tree.mapAll]
    rw [NodeLabel.kind_reposition, if_neg hkind, if_pos hoperator]
    rfl
  | case5 l ts hkind hoperator =>
    rw [reposition, Tree.map, evaluate.eq_def]
    dsimp only
    rw [NodeLabel.kind_reposition, if_neg hkind, if_neg hoperator]
    rfl

end SyntaxTree

/-! ### Listings -/

namespace Listing

variable {α β : Type} (g : α → β) (l : Listing α) (name : String) (value : α)

/-- Applies a function to every value. -/
def map : Listing β := ⟨l.entries.map fun e => (e.1, g e.2)⟩

@[simp] theorem map_empty : (empty : Listing α).map g = empty := rfl

@[simp] theorem names_map : (l.map g).names = l.names := by
  rw [names, map, List.map_map]
  rfl

@[simp] theorem values_map : (l.map g).values = l.values.map g := by
  rw [values, values, map, List.map_map, List.map_map]
  rfl

@[simp] theorem contains_map : (l.map g).contains name = l.contains name := by
  rw [contains, names_map, contains]

theorem find?_map : (l.map g).find? name = (l.find? name).map g := by
  obtain ⟨entries⟩ := l
  induction entries with
  | nil => rfl
  | cons e entries ih =>
    change List.lookup name ((e.1, g e.2) :: _) = (List.lookup name ((e.1, e.2) :: _)).map g
    rw [List.lookup_cons, List.lookup_cons]
    split
    · rfl
    · exact ih

@[simp] theorem map_push : (l.push name value).map g = (l.map g).push name (g value) := by
  rw [map, push, List.map_append]
  rfl

theorem map_keep : (l.keep name value).map g = (l.map g).keep name (g value) := by
  rw [keep, keep, contains_map]
  split
  · rfl
  · exact map_push g l name value

theorem map_set : (l.set name value).map g = (l.map g).set name (g value) := by
  rw [set, set, contains_map]
  split
  · rw [map, map, List.map_map, List.map_map]
    refine congrArg mk (List.map_congr_left fun e _ => ?_)
    rw [Function.comp_apply, Function.comp_apply]
    split
    · rfl
    · rfl
  · exact map_push g l name value

end Listing

/-! ### Symbols -/

/-- Changes all positions of an ingredient. -/
def Ingredient.reposition (i : Ingredient) : Ingredient :=
  { i with declaredAt := f i.declaredAt }

/-- Changes all positions of a portion. -/
def Portion.reposition (p : Portion) : Portion :=
  { p with ingredient := p.ingredient.reposition f }

/-- Changes all positions of a specialty. -/
def Specialty.reposition (s : Specialty) : Specialty :=
  { s with portions := s.portions.map (Portion.reposition f), declaredAt := f s.declaredAt }

namespace Symbol

/-- Changes all positions of a declaration. -/
def reposition : Symbol → Symbol
  | ingredient i => ingredient (i.reposition f)
  | specialty s => specialty (s.reposition f)

@[simp] theorem name_reposition (s : Symbol) : (s.reposition f).name = s.name := by
  cases s <;> rfl

@[simp] theorem kind_reposition (s : Symbol) : (s.reposition f).kind = s.kind := by
  cases s <;> rfl

@[simp] theorem declaredAt_reposition (s : Symbol) :
    (s.reposition f).declaredAt = f s.declaredAt := by
  cases s <;> rfl

end Symbol

namespace SymbolTable

/-- Changes all positions of a table. -/
def reposition (t : SymbolTable) : SymbolTable := ⟨t.symbols.map (Symbol.reposition f)⟩

variable (t : SymbolTable)

theorem get?_reposition (name : String) :
    (t.reposition f).get? name = (t.get? name).map (Symbol.reposition f) :=
  Listing.find?_map _ t.symbols name

theorem insert_reposition (s : Symbol) :
    (t.reposition f).insert (s.reposition f) =
      bimap (Clash.reposition f) (reposition f) (t.insert s) := by
  rw [insert, insert, get?_reposition, Symbol.name_reposition]
  cases t.get? s.name with
  | none => exact congrArg (Except.ok ∘ mk) (Listing.map_push _ _ _ _).symm
  | some bound =>
    rw [Symbol.declaredAt_reposition]
    change Except.error (Clash.mk s.name (f s.declaredAt) (bound.reposition f).declaredAt) = _
    rw [Symbol.declaredAt_reposition]
    rfl

theorem insertAll_reposition (ss : List Symbol) :
    (t.reposition f).insertAll (ss.map (Symbol.reposition f)) =
      ((t.insertAll ss).1.reposition f, (t.insertAll ss).2.map (Clash.reposition f)) := by
  induction ss generalizing t with
  | nil => rfl
  | cons s ss ih =>
    rw [List.map_cons, insertAll, insertAll, insert_reposition]
    cases t.insert s with
    | ok t => exact ih t
    | error clash => rfl

theorem merge_reposition (other : SymbolTable) :
    (t.reposition f).merge (other.reposition f) =
      ((t.merge other).1.reposition f, (t.merge other).2.map (Clash.reposition f)) := by
  have hlist : (other.reposition f).toList = other.toList.map (Symbol.reposition f) :=
    Listing.values_map _ other.symbols
  rw [merge, hlist]
  exact insertAll_reposition f t other.toList

/-! ### Definitions -/

variable (use : SyntaxTree)

theorem lookup_reposition (expected : SymbolKind) :
    (t.reposition f).lookup (use.reposition f) expected =
      bimap (SemanticError.reposition f) (Symbol.reposition f) (t.lookup use expected) := by
  rw [lookup, lookup, get?_reposition, SyntaxTree.value_reposition, SyntaxTree.kind_reposition,
    SyntaxTree.position_reposition]
  cases t.get? use.value with
  | none => rfl
  | some found =>
    dsimp only [Option.map_some]
    rw [Symbol.kind_reposition]
    split <;> rfl

theorem useAs_reposition {α : Type} (kind : SymbolKind) {pick : Symbol → Option α} {view : α → α}
    (hpick : ∀ s, pick (s.reposition f) = (pick s).map view) :
    (t.reposition f).useAs (use.reposition f) kind pick =
      bimap (SemanticError.reposition f) view (t.useAs use kind pick) := by
  rw [useAs, useAs, lookup_reposition, SyntaxTree.value_reposition]
  refine bind_bimap fun found => ?_
  rw [hpick]
  cases pick found with
  | none => exact congrArg Except.error (SyntaxTree.misfit_reposition f use _)
  | some declared => rfl

theorem useIngredient_reposition :
    (t.reposition f).useIngredient (use.reposition f) =
      bimap (SemanticError.reposition f) (Ingredient.reposition f) (t.useIngredient use) :=
  useAs_reposition f t use .ingredient fun s => by cases s <;> rfl

theorem useSpecialty_reposition :
    (t.reposition f).useSpecialty (use.reposition f) =
      bimap (SemanticError.reposition f) (Specialty.reposition f) (t.useSpecialty use) :=
  useAs_reposition f t use .specialty fun s => by cases s <;> rfl

theorem portionOf_reposition :
    (t.reposition f).portionOf (use.reposition f) =
      bimap (SemanticError.reposition f) (Portion.reposition f) (t.portionOf use) := by
  rw [portionOf, portionOf, useIngredient_reposition, SyntaxTree.child_reposition]
  refine bind_bimap fun ingredient => bind_bimap fun child => ?_
  rw [SyntaxTree.evaluate_reposition]
  refine bind_bimap fun quantity => ?_
  rw [SyntaxTree.value_reposition, SyntaxTree.position_reposition, id]
  split
  · rfl
  · rfl

theorem setPortion_reposition (portions : Listing Portion) :
    (t.reposition f).setPortion (portions.map (Portion.reposition f)) (use.reposition f) =
      bimap (SemanticError.reposition f) (Listing.map (Portion.reposition f))
        (t.setPortion portions use) := by
  rw [setPortion, setPortion, portionOf_reposition]
  exact bind_bimap fun portion => congrArg Except.ok (Listing.map_set _ _ _ _).symm

theorem specialtyOf_reposition (definition : SyntaxTree) :
    (t.reposition f).specialtyOf (definition.reposition f) =
      bimap (SemanticError.reposition f) (Specialty.reposition f) (t.specialtyOf definition) := by
  rw [specialtyOf, specialtyOf, SyntaxTree.child_reposition]
  refine bind_bimap fun name => ?_
  have hportions := foldlM_bimap (fun portions use => setPortion_reposition f t use portions)
    name.children .empty
  rw [SyntaxTree.children_reposition, SyntaxTree.value_reposition, SyntaxTree.position_reposition]
  rw [Listing.map_empty] at hportions
  rw [hportions]
  exact bind_bimap fun _ => rfl

end SymbolTable

/-! ### Pizzas -/

/-- Changes all positions of a pizza. -/
def Pizza.reposition (p : Pizza) : Pizza :=
  { p with
    portions := p.portions.map (Portion.reposition f)
    specialties := p.specialties.map (Specialty.reposition f) }

namespace SymbolTable

variable (t : SymbolTable)

theorem keepPortion_reposition (portions : Listing Portion) (use : SyntaxTree) :
    (t.reposition f).keepPortion (portions.map (Portion.reposition f)) (use.reposition f) =
      bimap (SemanticError.reposition f) (Listing.map (Portion.reposition f))
        (t.keepPortion portions use) := by
  rw [keepPortion, keepPortion, portionOf_reposition]
  exact bind_bimap fun portion => congrArg Except.ok (Listing.map_keep _ _ _ _).symm

theorem keepSpecialty_reposition (specialties : Listing Specialty) (use : SyntaxTree) :
    (t.reposition f).keepSpecialty (specialties.map (Specialty.reposition f)) (use.reposition f) =
      bimap (SemanticError.reposition f) (Listing.map (Specialty.reposition f))
        (t.keepSpecialty specialties use) := by
  rw [keepSpecialty, keepSpecialty, useSpecialty_reposition]
  exact bind_bimap fun specialty => congrArg Except.ok (Listing.map_keep _ _ _ _).symm

theorem addClause_reposition (pizza : Pizza) (clause : SyntaxTree) :
    (t.reposition f).addClause (pizza.reposition f) (clause.reposition f) =
      bimap (SemanticError.reposition f) (Pizza.reposition f) (t.addClause pizza clause) := by
  rw [addClause, addClause, SyntaxTree.kind_reposition, SyntaxTree.children_reposition]
  cases clause.kind
  case add =>
    have hportions := foldlM_bimap (keepPortion_reposition f t) clause.children pizza.portions
    dsimp only
    rw [Pizza.reposition, hportions]
    exact bind_bimap fun _ => rfl
  case ofClause =>
    have hspecialties :=
      foldlM_bimap (keepSpecialty_reposition f t) clause.children pizza.specialties
    dsimp only
    rw [Pizza.reposition, hspecialties]
    exact bind_bimap fun _ => rfl
  case saveAs =>
    dsimp only
    rw [SyntaxTree.child_reposition]
    refine bind_bimap fun name => ?_
    rw [SyntaxTree.value_reposition]
    rfl
  all_goals exact congrArg Except.error (SyntaxTree.misfit_reposition f clause _)

/-- **A pizza to make** does not look at positions. -/
theorem pizzaOf_reposition (make : SyntaxTree) :
    (t.reposition f).pizzaOf (make.reposition f) =
      bimap (SemanticError.reposition f) (Pizza.reposition f) (t.pizzaOf make) := by
  rw [pizzaOf, pizzaOf, SyntaxTree.child_reposition]
  refine bind_bimap fun size => ?_
  rw [SyntaxTree.value_reposition]
  cases PizzaSize.ofWord? size.value with
  | none => exact congrArg Except.error (SyntaxTree.misfit_reposition f size _)
  | some word =>
    dsimp only
    rw [SyntaxTree.child_reposition]
    refine bind_bimap fun body => ?_
    rw [SyntaxTree.children_reposition]
    exact foldlM_bimap (addClause_reposition f t) body.children (.plain word)

end SymbolTable

/-! ### Ingredients -/

theorem drawnSize_reposition (definition : SyntaxTree) (intrinsic : ImageSize) :
    drawnSize (definition.reposition f) intrinsic =
      bimap (SemanticError.reposition f) id (drawnSize definition intrinsic) := by
  rw [drawnSize, drawnSize, SyntaxTree.child?_reposition]
  cases definition.child? 1 with
  | none => rfl
  | some resize =>
    dsimp only [Option.map_some]
    rw [SyntaxTree.child_reposition]
    refine bind_bimap fun number => ?_
    rw [SyntaxTree.value_reposition, SyntaxTree.position_reposition]
    split
    · rfl
    · rfl

theorem ingredientOf_reposition (definition name path : SyntaxTree) (intrinsic : ImageSize) :
    ingredientOf (definition.reposition f) (name.reposition f) (path.reposition f) intrinsic =
      bimap (SemanticError.reposition f) (Ingredient.reposition f)
        (ingredientOf definition name path intrinsic) := by
  rw [ingredientOf, ingredientOf, drawnSize_reposition]
  refine bind_bimap fun size => ?_
  rw [SyntaxTree.value_reposition, SyntaxTree.position_reposition, SyntaxTree.value_reposition, id]
  split
  · rfl
  · split
    · rfl
    · rfl

end PizzaLang
