/-!
# Labelled trees

Finite trees whose nodes carry a label and have their children in order. Everything
that walks a program's tree recurses on this type.
-/

namespace PizzaLang

/-- **A tree** with labels of type `α`. -/
inductive Tree (α : Type)
  | node (label : α) (children : List (Tree α))
deriving Inhabited

namespace Tree

variable {α β : Type}

/-- The label of the topmost node. -/
def label : Tree α → α
  | node a _ => a

/-- The trees right below the topmost node. -/
def children : Tree α → List (Tree α)
  | node _ ts => ts

/-! ### Relabelling -/

mutual

/-- Applies a function to every label. -/
def map (f : α → β) : Tree α → Tree β
  | node a ts => node (f a) (mapAll f ts)

/-- Applies a function to every label of a list of trees. -/
def mapAll (f : α → β) : List (Tree α) → List (Tree β)
  | [] => []
  | t :: ts => map f t :: mapAll f ts

end

theorem mapAll_eq_map (f : α → β) (ts : List (Tree α)) : mapAll f ts = ts.map (map f) := by
  induction ts with
  | nil => rfl
  | cons t ts ih => rw [mapAll, List.map_cons, ih]

/-! ### The nearest labels with a property -/

mutual

/-- **The nearest labels with a property** below the topmost node: those right below
it, if there are any, and otherwise the nearest ones below each child. -/
def nearest (p : α → Bool) : Tree α → List α
  | node _ ts =>
    let direct := (ts.map label).filter p
    if direct.isEmpty then nearestAmong p ts else direct

/-- The nearest labels with a property below each tree of a list. -/
def nearestAmong (p : α → Bool) : List (Tree α) → List α
  | [] => []
  | t :: ts => nearest p t ++ nearestAmong p ts

end

theorem nearestAmong_eq_flatMap (p : α → Bool) (ts : List (Tree α)) :
    nearestAmong p ts = ts.flatMap (nearest p) := by
  induction ts with
  | nil => rfl
  | cons t ts ih => rw [nearestAmong, List.flatMap_cons, ih]

end Tree

end PizzaLang
