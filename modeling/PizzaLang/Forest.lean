import PizzaLang.Tree.Syntactic

/-!
# Forests

While a program is read its tree grows piece by piece, and the pieces live in a forest:
nodes numbered in the order they were made, each with links to its parent and to its
children. A node starts out alone; `attach` makes it the last child of another.

Nothing in a number says that there is a node of that number, and a step does not ask. So a
forest keeps a history of the steps that have been taken, in which a step that names a node
which is not there can be seen, even if it has no other effect.

A forest becomes a tree by `Forest.unfold`, which follows the links down from a node.
Parents and children of a proper forest never run in a circle, so no branch is longer
than the number of nodes, and following the links to that depth shows everything.
-/

namespace PizzaLang

/-- The number of a node. -/
abbrev NodeId := Nat

/-- A node of a forest. -/
structure ForestNode extends NodeLabel where
  /-- The node it hangs from. -/
  parent : Option NodeId
  /-- The nodes that hang from it, in order. -/
  children : List NodeId
deriving DecidableEq, Inhabited

/-- **A step by which a forest grows.** A node whose value is the name of its kind is made like any
other. -/
inductive Forest.Step
  /-- A node is made. -/
  | alloc (label : NodeLabel)
  /-- A node becomes the last child of another. -/
  | attach (parent child : NodeId)
  /-- A node becomes the root. -/
  | setRoot (id : NodeId)
deriving DecidableEq

/-- **A forest** of numbered nodes, one of which may be marked as the root of the whole
program. -/
structure Forest where
  nodes : Array ForestNode
  root : Option NodeId
  /-- The steps that have been taken, in order, whether or not the nodes that they name were
  there. -/
  history : Array Forest.Step
deriving Inhabited

namespace Forest

/-- The forest without nodes. -/
def empty : Forest := ⟨#[], none, #[]⟩

/-- How many nodes there are, attached or not. -/
def size (f : Forest) : Nat := f.nodes.size

/-- The node with this number. -/
def get (f : Forest) (id : NodeId) : ForestNode := f.nodes.getD id default

/-- The nodes that hang from a node, in order. -/
def children (f : Forest) (id : NodeId) : List NodeId := (f.get id).children

/-- The child at a place, counted from zero. -/
def child? (f : Forest) (id : NodeId) (index : Nat) : Option NodeId := (f.children id)[index]?

/-- The node that a node hangs from. -/
def parent? (f : Forest) (id : NodeId) : Option NodeId := (f.get id).parent

/-! ### Growing -/

/-- Adds a node that hangs from nothing, and gives its number. -/
def alloc (f : Forest) (label : NodeLabel) : NodeId × Forest :=
  (f.size, { f with
    nodes := f.nodes.push ⟨label, none, []⟩
    history := f.history.push (.alloc label) })

/-- Makes a node the last child of another. -/
def attach (f : Forest) (parent child : NodeId) : Forest :=
  { f with
    nodes := (f.nodes.modify child fun n => { n with parent := some parent }).modify parent
      fun n => { n with children := n.children ++ [child] }
    history := f.history.push (.attach parent child) }

/-- Marks a node as the root of the program. -/
def setRoot (f : Forest) (id : NodeId) : Forest :=
  { f with root := some id, history := f.history.push (.setRoot id) }

/-! ### Following the links -/

/-- The tree of numbers below a node, to a depth. -/
def unfoldTo (f : Forest) : Nat → NodeId → Tree NodeId
  | 0, id => .node id []
  | depth + 1, id => .node id ((f.children id).map (f.unfoldTo depth))

/-- **The tree of numbers below a node.** -/
def unfold (f : Forest) (id : NodeId) : Tree NodeId := f.unfoldTo f.size id

/-- **The tree below a node.** -/
def subtree (f : Forest) (id : NodeId) : SyntaxTree :=
  (f.unfold id).map fun i => (f.get i).toNodeLabel

/-- The tree of the program, once its root is marked. -/
def tree? (f : Forest) : Option SyntaxTree := f.root.map f.subtree

/-- **The nearest nodes of a kind** below a node: its children of that kind, if there
are any, and otherwise the nearest ones below each child. -/
def nearest (f : Forest) (id : NodeId) (kind : NodeKind) : List NodeId :=
  (f.unfold id).nearest fun i => (f.get i).kind = kind

/-- Goes up a number of links at most. -/
def climb (f : Forest) : Nat → NodeId → NodeId
  | 0, id => id
  | links + 1, id =>
    match f.parent? id with
    | some up => f.climb links up
    | none => id

/-- **The top of the tree** that a node belongs to. -/
def top (f : Forest) (id : NodeId) : NodeId := f.climb f.size id

/-- The text of the program's tree; empty as long as no root is marked. -/
def render (f : Forest) : String := (f.tree?.map SyntaxTree.render).getD ""

end Forest

end PizzaLang
