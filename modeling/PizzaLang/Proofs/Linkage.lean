import Mathlib.Data.List.Flatten
import Mathlib.Data.List.Nodup
import Mathlib.Logic.Relation
import PizzaLang.Proofs.Outline

/-!
# Proper forests

A node keeps the number of its parent and the numbers of its children, and nothing in the two
links makes them agree or keeps them from running in a circle. In a *proper* forest they do agree,
and no node is above itself (`PizzaLang.Forest.Proper`). It follows that

* going up from a node ends at the top of its tree, the only node there without a parent
  (`PizzaLang.Forest.Proper.top_eq`, `PizzaLang.Forest.Proper.parent?_top`,
  `PizzaLang.Forest.Proper.eq_top`);
* going down ends as well, so that properties of nodes can be shown from those of their children
  (`PizzaLang.Forest.Proper.induction`), and the tree below a node is the node with the trees
  below its children (`PizzaLang.Forest.Proper.unfold_eq`);
* a tree has each of its nodes once (`PizzaLang.Forest.Proper.nodup_documentOrder`).

The depth to which links are followed is the number of nodes. It is enough because the nodes on
the way are all different.

A forest grows by steps (`PizzaLang.Forest.Step`), and it stays proper if a node is attached only
while it has no parent, and not to a node of its own tree (`PizzaLang.Forest.Proper.run`). These
conditions are not only sufficient: children are never taken away, so a step that breaks them
leaves a mark which no later step removes (`PizzaLang.Forest.Proper.permitted_of_run`).

The steps that have been taken are in the history of a forest (`PizzaLang.Forest.history_run`), so
what is said of them is said of these steps, and not only of some that could have led to the same
nodes: `PizzaLang.Forest.Made P f g` says that the steps which have made `g` from `f` are all of a
sort.
-/

namespace PizzaLang

namespace Forest

open PizzaLang.Tree

variable {f g : Forest} {i p c a b x : NodeId} {l : NodeLabel}

/-! ### Links -/

/-- A node hangs right below another. -/
def Holds (f : Forest) (p c : NodeId) : Prop := c ∈ f.children p

/-- A node is above another, by one link or more. -/
abbrev Above (f : Forest) : NodeId → NodeId → Prop := Relation.TransGen f.Holds

/-- A node is reached by going down from another, by any number of links. -/
abbrev Reaches (f : Forest) : NodeId → NodeId → Prop := Relation.ReflTransGen f.Holds

/-- Nodes that are joined by links are in one tree. -/
abbrev InOneTree (f : Forest) : NodeId → NodeId → Prop := Relation.EqvGen f.Holds

theorem get_of_size_le (h : f.size ≤ i) : f.get i = default := by
  rw [get, Array.getD_eq_getD_getElem?, Array.getElem?_eq_none h]
  rfl

theorem lt_size_of_parent? (h : f.parent? c = some p) : c < f.size := by
  by_contra hlt
  rw [parent?, get_of_size_le (Nat.le_of_not_lt hlt)] at h
  cases h

theorem Holds.lt_size (h : f.Holds p c) : p < f.size := by
  by_contra hlt
  rw [Holds, children, get_of_size_le (Nat.le_of_not_lt hlt)] at h
  cases h

/-- A node that is made has no links, and no others change. -/
theorem get_alloc_links :
    (f.alloc l).2.parent? i = f.parent? i ∧ (f.alloc l).2.children i = f.children i := by
  by_cases hi : i = f.size
  · subst hi
    rw [parent?, children, get_alloc_size, parent?, children, get_of_size_le (Nat.le_refl _)]
    exact ⟨rfl, rfl⟩
  · rw [parent?, children, get_alloc_of_ne hi]
    exact ⟨rfl, rfl⟩

@[simp] theorem parent?_alloc : (f.alloc l).2.parent? i = f.parent? i := get_alloc_links.1

@[simp] theorem children_alloc : (f.alloc l).2.children i = f.children i := get_alloc_links.2

/-- Attaching gives one node a parent, and all others keep what they have. -/
theorem parent?_attach :
    (f.attach p c).parent? i = if i = c ∧ c < f.size then some p else f.parent? i := by
  simp only [parent?, attach, get, size, Array.getD_eq_getD_getElem?, Array.getElem?_modify]
  by_cases hc : c = i
  · subst hc
    by_cases hlt : c < f.nodes.size
    · simp only [hlt, Array.getElem?_eq_getElem hlt, if_true, and_self]
      split <;> rfl
    · simp [hlt]
  · have hc' : ¬(i = c ∧ c < f.nodes.size) := fun h => hc h.1.symm
    rw [if_neg hc, if_neg hc']
    cases f.nodes[i]? with
    | none => simp
    | some n => split <;> rfl

/-- Different nodes that are all there are not more than there are. -/
theorem length_le_size {ids : List NodeId} (hnodup : ids.Nodup) (hlt : ∀ x ∈ ids, x < f.size) :
    ids.length ≤ f.size := by
  have hsub : ids ⊆ List.range f.size := fun x hx => List.mem_range.mpr (hlt x hx)
  exact Nat.le_trans (hnodup.length_le_of_subset hsub) (Nat.le_of_eq List.length_range)

/-! ### Proper forests -/

/-- **A proper forest**: a node is among the children of its parent, once, and of no other node,
and no node is above itself. -/
structure Proper (f : Forest) : Prop where
  linked : ∀ p c, (f.children p).count c = if f.parent? c = some p then 1 else 0
  acyclic : ∀ i, ¬f.Above i i

namespace Proper

variable (hf : f.Proper)

include hf

theorem holds_iff : f.Holds p c ↔ f.parent? c = some p := by
  rw [Holds, ← List.count_pos_iff, hf.linked]
  split <;> simp [*]

theorem nodup_children : (f.children p).Nodup := by
  rw [List.nodup_iff_count_le_one]
  intro c
  rw [hf.linked]
  split <;> simp

theorem lt_size (h : f.Holds p c) : c < f.size := lt_size_of_parent? (hf.holds_iff.mp h)

theorem lt_size_of_above (h : f.Above a x) : x < f.size := by
  rcases h with h | ⟨-, h⟩ <;> exact hf.lt_size h

/-- A node has only one parent, so of two nodes that reach a third one reaches the other. -/
theorem reaches_total (ha : f.Reaches a x) (hb : f.Reaches b x) :
    f.Reaches a b ∨ f.Reaches b a := by
  have hunique : Relator.RightUnique (Function.swap f.Holds) := by
    intro c p q hp hq
    exact Option.some.inj ((hf.holds_iff.mp hp).symm.trans (hf.holds_iff.mp hq))
  have htotal := Relation.ReflTransGen.total_of_right_unique hunique
    (Relation.reflTransGen_swap.mpr ha) (Relation.reflTransGen_swap.mpr hb)
  exact htotal.symm.imp Relation.reflTransGen_swap.mp Relation.reflTransGen_swap.mp

/-- What is above a node is its parent or above it. -/
theorem reaches_of_above (h : f.Above a c) (hp : f.parent? c = some p) : f.Reaches a p := by
  obtain ⟨q, haq, hq⟩ := Relation.TransGen.tail'_iff.mp h
  obtain rfl : q = p := Option.some.inj ((hf.holds_iff.mp hq).symm.trans hp)
  exact haq

/-- **The children of a node have nothing in common.** -/
theorem eq_of_reaches (ha : f.Holds p a) (hb : f.Holds p b) (hax : f.Reaches a x)
    (hbx : f.Reaches b x) : a = b := by
  have hapart : ∀ {a b : NodeId}, f.Holds p a → f.Holds p b → f.Reaches a b → a = b := by
    intro a b ha hb hab
    rcases Relation.reflTransGen_iff_eq_or_transGen.mp hab with heq | habove
    · exact heq.symm
    · have hap := hf.reaches_of_above habove (hf.holds_iff.mp hb)
      exact absurd (Relation.TransGen.head' ha hap) (hf.acyclic p)
  rcases hf.reaches_total hax hbx with hab | hba
  · exact hapart ha hb hab
  · exact (hapart hb ha hba).symm

end Proper

/-! ### Going up -/

theorem climb_of_parent?_eq_none (h : f.parent? i = none) (n : Nat) : f.climb n i = i := by
  match n with
  | 0 => rfl
  | n + 1 => rw [climb, h]

theorem climb_succ_of_parent? (h : f.parent? i = some p) (n : Nat) :
    f.climb (n + 1) i = f.climb n p := by
  rw [climb, h]

/-- Further links change nothing once the top is reached. -/
theorem climb_succ (n : Nat) (h : f.parent? (f.climb n i) = none) :
    f.climb (n + 1) i = f.climb n i := by
  induction n generalizing i with
  | zero => exact climb_of_parent?_eq_none h 1
  | succ n ih =>
    cases hi : f.parent? i with
    | none => rw [climb_of_parent?_eq_none hi, climb_of_parent?_eq_none hi]
    | some p =>
      rw [climb_succ_of_parent? hi] at h
      rw [climb_succ_of_parent? hi, ih h, climb_succ_of_parent? hi]

/-- Going up from a node below a bound stays below it if all links do. -/
theorem climb_lt {n : Nat} (hup : ∀ j < n, ∀ q, f.parent? j = some q → q < n) (hi : i < n)
    (k : Nat) : f.climb k i < n := by
  induction k generalizing i with
  | zero => exact hi
  | succ k ih =>
    cases hp : f.parent? i with
    | none => rwa [climb_of_parent?_eq_none hp]
    | some p =>
      rw [climb_succ_of_parent? hp]
      exact ih (hup i hi p hp)

namespace Proper

variable (hf : f.Proper)

include hf

theorem reaches_climb (n : Nat) (i : NodeId) : f.Reaches (f.climb n i) i := by
  induction n generalizing i with
  | zero => exact .refl
  | succ n ih =>
    cases hi : f.parent? i with
    | none => rw [climb_of_parent?_eq_none hi]
    | some p =>
      rw [climb_succ_of_parent? hi]
      exact (ih p).tail (hf.holds_iff.mpr hi)

/-- **As long as there is a way up, the nodes on it are all different.** -/
theorem exists_way_up {n : Nat} (h : f.parent? (f.climb n i) ≠ none) :
    ∃ ids : List NodeId, ids.length = n + 1 ∧ ids.Nodup ∧
      ∀ x ∈ ids, f.Reaches x i ∧ x < f.size := by
  induction n generalizing i with
  | zero =>
    obtain ⟨p, hp⟩ := Option.ne_none_iff_exists'.mp h
    refine ⟨[i], rfl, List.nodup_singleton i, fun x hx => ?_⟩
    obtain rfl := List.mem_singleton.mp hx
    exact ⟨.refl, lt_size_of_parent? hp⟩
  | succ n ih =>
    cases hi : f.parent? i with
    | none =>
      rw [climb_of_parent?_eq_none hi] at h
      exact absurd hi h
    | some p =>
      rw [climb_succ_of_parent? hi] at h
      obtain ⟨ids, hlength, hnodup, hids⟩ := ih h
      have hhangs : f.Holds p i := hf.holds_iff.mpr hi
      -- the node itself is not above its parent
      have hnew : i ∉ ids := fun hmem =>
        hf.acyclic i (Relation.TransGen.tail' (hids i hmem).1 hhangs)
      refine ⟨i :: ids, by rw [List.length_cons, hlength], List.nodup_cons.mpr ⟨hnew, hnodup⟩, ?_⟩
      rw [List.forall_mem_cons]
      refine ⟨⟨.refl, lt_size_of_parent? hi⟩, fun x hx => ?_⟩
      exact ⟨(hids x hx).1.tail hhangs, (hids x hx).2⟩

/-- **The way up ends at a node without a parent.** -/
theorem parent?_top (i : NodeId) : f.parent? (f.top i) = none := by
  by_contra h
  obtain ⟨ids, hlength, hnodup, hids⟩ := hf.exists_way_up h
  have hle := length_le_size hnodup fun x hx => (hids x hx).2
  omega

/-- **The way up, one link at a time.** -/
theorem top_eq (i : NodeId) :
    f.top i = match f.parent? i with
      | some up => f.top up
      | none => i := by
  cases hi : f.parent? i with
  | none => exact climb_of_parent?_eq_none hi f.size
  | some p =>
    have hend : f.parent? (f.climb f.size i) = none := hf.parent?_top i
    change f.climb f.size i = f.climb f.size p
    rw [← climb_succ f.size hend, climb_succ_of_parent? hi]

theorem reaches_top (i : NodeId) : f.Reaches (f.top i) i := hf.reaches_climb f.size i

theorem top_of_holds (h : f.Holds p c) : f.top c = f.top p := by
  rw [hf.top_eq c, hf.holds_iff.mp h]

theorem top_of_reaches (h : f.Reaches a x) : f.top x = f.top a := by
  induction h with
  | refl => rfl
  | tail _ h ih => rw [hf.top_of_holds h, ih]

/-- **A tree has only one node without a parent.** -/
theorem eq_top {r : NodeId} (h : f.InOneTree i r) (hr : f.parent? r = none) : r = f.top i := by
  have htop : f.top i = f.top r := by
    clear hr
    induction h with
    | rel p c h => exact (hf.top_of_holds h).symm
    | refl => rfl
    | symm _ _ _ ih => exact ih.symm
    | trans _ _ _ _ _ ih ih' => exact ih.trans ih'
  rw [htop, top, climb_of_parent?_eq_none hr]

/-- **Going up comes to an end.** -/
theorem wellFounded_up : WellFounded fun up i => f.parent? i = some up := by
  have hacc : ∀ n i, f.parent? (f.climb n i) = none →
      Acc (fun up i => f.parent? i = some up) i := by
    intro n
    induction n with
    | zero =>
      intro i hi
      refine Acc.intro i fun up hup => ?_
      rw [climb, hup] at hi
      cases hi
    | succ n ih =>
      intro i hi
      refine Acc.intro i fun up hup => ih up ?_
      rwa [climb_succ_of_parent? hup] at hi
  exact ⟨fun i => hacc f.size i (hf.parent?_top i)⟩

end Proper

/-! ### Going down -/

/-- There is a way down by that many links. -/
def Deep (f : Forest) : Nat → NodeId → Prop
  | 0, _ => True
  | n + 1, i => ∃ c ∈ f.children i, f.Deep n c

theorem unfoldTo_succ {n : Nat} (h : ¬f.Deep (n + 1) i) :
    f.unfoldTo (n + 1) i = f.unfoldTo n i := by
  induction n generalizing i with
  | zero =>
    have hleaf : f.children i = [] :=
      List.eq_nil_iff_forall_not_mem.mpr fun c hc => h ⟨c, hc, trivial⟩
    rw [unfoldTo, unfoldTo, hleaf, List.map_nil]
  | succ n ih =>
    rw [unfoldTo, unfoldTo]
    congr 1
    exact List.map_congr_left fun c hc => ih fun hdeep => h ⟨c, hc, hdeep⟩

/-- The nodes of the tree below a node, in document order. -/
def documentOrder (f : Forest) (i : NodeId) : List NodeId := (f.unfold i).preorder

theorem label_unfold : (f.unfold i).label = i := by
  rw [unfold]
  cases f.size with
  | zero => rfl
  | succ n => rfl

namespace Proper

variable (hf : f.Proper)

include hf

/-- **The nodes on a way down are all different.** -/
theorem exists_way_down {n : Nat} (h : f.Deep (n + 1) i) :
    ∃ ids : List NodeId, ids.length = n + 1 ∧ ids.Nodup ∧ ∀ x ∈ ids, f.Above i x := by
  induction n generalizing i with
  | zero =>
    obtain ⟨c, hc, -⟩ := h
    refine ⟨[c], rfl, List.nodup_singleton c, fun x hx => ?_⟩
    obtain rfl := List.mem_singleton.mp hx
    exact .single hc
  | succ n ih =>
    obtain ⟨c, hc, hdeep⟩ := h
    obtain ⟨ids, hlength, hnodup, hids⟩ := ih hdeep
    have hnew : c ∉ ids := fun hmem => hf.acyclic c (hids c hmem)
    refine ⟨c :: ids, by rw [List.length_cons, hlength], List.nodup_cons.mpr ⟨hnew, hnodup⟩, ?_⟩
    rw [List.forall_mem_cons]
    exact ⟨.single hc, fun x hx => .head hc (hids x hx)⟩

theorem not_deep (i : NodeId) : ¬f.Deep (f.size + 1) i := by
  intro h
  obtain ⟨ids, hlength, hnodup, hids⟩ := hf.exists_way_down h
  have hle := length_le_size hnodup fun x hx => hf.lt_size_of_above (hids x hx)
  omega

/-- **What passes from the children of a node to the node holds of all nodes.** -/
theorem induction {P : NodeId → Prop} (h : ∀ i, (∀ c ∈ f.children i, P c) → P i) (i : NodeId) :
    P i := by
  have hbounded : ∀ n i, ¬f.Deep n i → P i := by
    intro n
    induction n with
    | zero => exact fun i hi => absurd trivial hi
    | succ n ih => exact fun i hi => h i fun c hc => ih c fun hdeep => hi ⟨c, hc, hdeep⟩
  exact hbounded _ i (hf.not_deep i)

/-- **Going down comes to an end.** -/
theorem wellFounded_down : WellFounded fun c i => c ∈ f.children i :=
  ⟨hf.induction fun i ih => Acc.intro i ih⟩

/-- **The tree below a node** is the node with the trees below its children. -/
theorem unfold_eq (i : NodeId) : f.unfold i = .node i ((f.children i).map f.unfold) :=
  (unfoldTo_succ (hf.not_deep i)).symm

theorem documentOrder_eq (i : NodeId) :
    f.documentOrder i = i :: (f.children i).flatMap f.documentOrder := by
  rw [documentOrder, hf.unfold_eq, preorder_eq]
  change i :: ((f.children i).map f.unfold).flatMap preorder = _
  rw [List.flatMap_map]
  rfl

/-- The tree below a node consists of what is reached from it. -/
theorem mem_documentOrder : x ∈ f.documentOrder i ↔ f.Reaches i x := by
  induction i using hf.induction with
  | h i ih =>
    rw [hf.documentOrder_eq, List.mem_cons, List.mem_flatMap, eq_comm]
    refine Iff.trans (or_congr_right ?_) Relation.ReflTransGen.cases_head_iff.symm
    exact exists_congr fun c => and_congr_right fun hc => ih c hc

/-- **A tree has each of its nodes once.** -/
theorem nodup_documentOrder (i : NodeId) : (f.documentOrder i).Nodup := by
  induction i using hf.induction with
  | h i ih =>
    rw [hf.documentOrder_eq, List.nodup_cons, List.nodup_flatMap]
    refine ⟨fun hmem => ?_, ih, ?_⟩
    · obtain ⟨c, hc, hi⟩ := List.mem_flatMap.mp hmem
      exact hf.acyclic i (.head' hc (hf.mem_documentOrder.mp hi))
    · refine hf.nodup_children.imp_of_mem fun {a b} ha hb hne x hax hbx => hne ?_
      exact hf.eq_of_reaches ha hb (hf.mem_documentOrder.mp hax) (hf.mem_documentOrder.mp hbx)

/-- **The nearest nodes of a kind**, one level at a time. -/
theorem nearest_eq (i : NodeId) (kind : NodeKind) :
    f.nearest i kind =
      let direct := (f.children i).filter fun c => (f.get c).kind = kind
      if direct.isEmpty then (f.children i).flatMap (f.nearest · kind) else direct := by
  have hlabels : ((f.children i).map f.unfold).map label = f.children i := by
    rw [List.map_map]
    exact (List.map_congr_left fun c _ => label_unfold).trans (List.map_id _)
  rw [Forest.nearest, hf.unfold_eq, Tree.nearest, hlabels, nearestAmong_eq_flatMap,
    List.flatMap_map]
  rfl

theorem subtree_eq (i : NodeId) :
    f.subtree i = .node (f.labelAt i) ((f.children i).map f.subtree) := by
  rw [subtree, hf.unfold_eq, Tree.map, mapAll_eq_map, List.map_map]
  rfl

/-- **The lines of a tree**: that of the topmost node, and those of the trees below it. -/
theorem renderLines_subtree (depth : Nat) (i : NodeId) :
    SyntaxTree.renderLines depth (f.subtree i) =
      SyntaxTree.renderLabel depth (f.labelAt i) ::
        (f.children i).flatMap fun c => SyntaxTree.renderLines (depth + 1) (f.subtree c) := by
  rw [hf.subtree_eq, SyntaxTree.renderLines_eq, outline, List.map_cons, outlineAll_eq_flatMap,
    List.map_flatMap, List.flatMap_map]
  simp only [SyntaxTree.renderLines_eq]

end Proper

/-- **A forest is printed node by node**: a line for each node of the tree below the root, in
document order. -/
theorem render_eq {root : NodeId} (h : f.root = some root) :
    f.render = String.join (((f.unfold root).outline 0).map fun p =>
      SyntaxTree.renderLabel p.1 (f.labelAt p.2) ++ "\n") := by
  rw [render, tree?, h]
  change SyntaxTree.render ((f.unfold root).map f.labelAt) = _
  rw [SyntaxTree.render, SyntaxTree.renderLines_eq, outline_map, List.map_map, List.map_map]
  rfl

/-! ### Steps -/

/-- The forest after a step. -/
def step (f : Forest) : Step → Forest
  | .alloc label => (f.alloc label).2
  | .attach parent child => f.attach parent child
  | .setRoot id => f.setRoot id

/-- The forest after some steps. -/
def run (f : Forest) (steps : List Step) : Forest := steps.foldl step f

/-- **A step is possible**: what is attached, what it is attached to, and what becomes the root are
nodes that are there. -/
def Possible (f : Forest) : Step → Prop
  | .alloc _ => True
  | .attach parent child => parent < f.size ∧ child < f.size
  | .setRoot id => id < f.size

/-- **A step is permitted**: it is possible, and if a node is attached to another, it has no parent
yet, and is not the top of the tree of the other. -/
def Permitted (f : Forest) : Step → Prop
  | .alloc _ => True
  | .attach parent child =>
    (parent < f.size ∧ child < f.size) ∧ f.parent? child = none ∧ child ≠ f.top parent
  | .setRoot id => id < f.size

/-- **Each step is of a sort**, in the forest in which it is taken. -/
def Each (P : Forest → Step → Prop) : Forest → List Step → Prop
  | _, [] => True
  | f, s :: steps => P f s ∧ Each P (f.step s) steps

instance decidablePossible (f : Forest) : (s : Step) → Decidable (f.Possible s)
  | .alloc _ => inferInstanceAs (Decidable True)
  | .attach parent child => inferInstanceAs (Decidable (parent < f.size ∧ child < f.size))
  | .setRoot id => inferInstanceAs (Decidable (id < f.size))

instance decidablePermitted (f : Forest) : (s : Step) → Decidable (f.Permitted s)
  | .alloc _ => inferInstanceAs (Decidable True)
  | .attach parent child => inferInstanceAs (Decidable
      ((parent < f.size ∧ child < f.size) ∧ f.parent? child = none ∧ child ≠ f.top parent))
  | .setRoot id => inferInstanceAs (Decidable (id < f.size))

instance decidableEach (P : Forest → Step → Prop) [∀ f s, Decidable (P f s)] :
    (f : Forest) → (steps : List Step) → Decidable (Each P f steps)
  | _, [] => inferInstanceAs (Decidable True)
  | f, s :: steps =>
    have := decidableEach P (f.step s) steps
    inferInstanceAs (Decidable (P f s ∧ Each P (f.step s) steps))

variable {steps steps' : List Step} {P Q : Forest → Step → Prop} {s : Step}

theorem Permitted.possible (h : f.Permitted s) : f.Possible s := by
  cases s with
  | alloc label => trivial
  | attach parent child => exact h.1
  | setRoot id => exact h

theorem run_append : f.run (steps ++ steps') = (f.run steps).run steps' := List.foldl_append

theorem each_append :
    Each P f (steps ++ steps') ↔ Each P f steps ∧ Each P (f.run steps) steps' := by
  induction steps generalizing f with
  | nil => exact (and_iff_right trivial).symm
  | cons s steps ih => exact (and_congr_right fun _ => ih).trans and_assoc.symm

theorem Each.imp (h : ∀ f s, P f s → Q f s) (hsteps : Each P f steps) : Each Q f steps := by
  induction steps generalizing f with
  | nil => trivial
  | cons s steps ih => exact ⟨h f s hsteps.1, ih hsteps.2⟩

/-- **What steps of a sort keep holds after all of them.** -/
theorem Each.invariant {I : Forest → Prop} (hstep : ∀ f s, I f → P f s → I (f.step s))
    (hsteps : Each P f steps) (hf : I f) : I (f.run steps) := by
  induction steps generalizing f with
  | nil => exact hf
  | cons s steps ih => exact ih hsteps.2 (hstep f s hf hsteps.1)

/-! ### Histories -/

theorem history_step : (f.step s).history = f.history.push s := by
  cases s <;> rfl

/-- **The history of a forest has all steps that are taken.** -/
theorem history_run : (f.run steps).history = f.history ++ steps.toArray := by
  induction steps generalizing f with
  | nil => exact Array.append_empty.symm
  | cons s steps ih =>
    change ((f.step s).run steps).history = _
    rw [ih, history_step]
    simp

/-- **The steps taken since** a forest was another. -/
def stepsSince (g f : Forest) : List Step := g.history.toList.drop f.history.size

@[simp] theorem stepsSince_run : (f.run steps).stepsSince f = steps := by
  simp [stepsSince, history_run]

/-- **A forest has been made from another by steps of a sort**: the steps taken since lead from the
one to the other, and each of them is of the sort. -/
structure Made (P : Forest → Step → Prop) (f g : Forest) : Prop where
  run_stepsSince : f.run (g.stepsSince f) = g
  each : Each P f (g.stepsSince f)

/-- **A forest grows** into another: all steps taken since name only nodes that are there. -/
abbrev Grows (f g : Forest) : Prop := Made Possible f g

/-- **Permitted steps lead from a forest to another**, and no other steps have been taken. -/
abbrev Leads (f g : Forest) : Prop := Made Permitted f g

/-- **The history decides**: whichever steps lead from a forest to another, they are the steps that
have been taken. -/
theorem made_run_iff : Made P f (f.run steps) ↔ Each P f steps := by
  constructor
  · intro h
    have heach := h.each
    rwa [stepsSince_run] at heach
  · intro h
    refine ⟨?_, ?_⟩
    · rw [stepsSince_run]
    · rwa [stepsSince_run]

namespace Made

theorem refl : Made P f f := (made_run_iff.mpr trivial : Made P f (f.run []))

theorem exists_run (h : Made P f g) : ∃ steps, Each P f steps ∧ f.run steps = g :=
  ⟨_, h.each, h.run_stepsSince⟩

theorem trans {h : Forest} (hfg : Made P f g) (hgh : Made P g h) : Made P f h := by
  obtain ⟨steps, hsteps, rfl⟩ := hfg.exists_run
  obtain ⟨steps', hsteps', rfl⟩ := hgh.exists_run
  rw [← run_append]
  exact made_run_iff.mpr (each_append.mpr ⟨hsteps, hsteps'⟩)

theorem step (h : Made P f g) (hs : P g s) : Made P f (g.step s) :=
  h.trans (made_run_iff.mpr ⟨hs, trivial⟩ : Made P g (g.run [s]))

end Made

/-- Links are all that matters. -/
theorem Proper.congr (hf : f.Proper) (hparent : ∀ i, g.parent? i = f.parent? i)
    (hchildren : ∀ i, g.children i = f.children i) : g.Proper := by
  have hholds : g.Holds = f.Holds := by
    funext p c
    rw [Holds, Holds, hchildren]
  refine ⟨fun p c => ?_, fun i => ?_⟩
  · rw [hchildren, hparent]
    exact hf.linked p c
  · rw [Above, hholds]
    exact hf.acyclic i

theorem proper_empty : empty.Proper := by
  refine ⟨fun p c => rfl, fun i h => ?_⟩
  obtain ⟨c, hc, -⟩ := Relation.TransGen.head'_iff.mp h
  exact absurd hc.lt_size (Nat.not_lt_zero i)

theorem holds_attach (h : (f.attach p c).Holds a b) : f.Holds a b ∨ a = p ∧ b = c := by
  rw [Holds, children_attach] at h
  split at h
  · next hp =>
    rcases List.mem_append.mp h with h | h
    · exact Or.inl h
    · exact Or.inr ⟨hp.1, List.mem_singleton.mp h⟩
  · exact Or.inl h

/-- A way down after attaching was there before, or leads through the new link. -/
theorem above_attach (h : (f.attach p c).Above a b) :
    f.Above a b ∨ f.Reaches a p ∧ f.Reaches c b := by
  induction h with
  | single h =>
    rcases holds_attach h with h | ⟨rfl, rfl⟩
    · exact Or.inl (.single h)
    · exact Or.inr ⟨.refl, .refl⟩
  | tail _ h ih =>
    rcases holds_attach h with h | ⟨rfl, rfl⟩
    · exact ih.imp (fun hab => hab.tail h) fun ⟨hap, hcb⟩ => ⟨hap, hcb.tail h⟩
    · exact Or.inr ⟨ih.elim (fun hab => hab.to_reflTransGen) And.left, .refl⟩

/-- **Attaching keeps a forest proper** if it is permitted. -/
theorem Proper.attach (hf : f.Proper) (hp : p < f.size) (hc : c < f.size)
    (hfree : f.parent? c = none) (htop : c ≠ f.top p) : (f.attach p c).Proper := by
  refine ⟨fun q d => ?_, fun i h => ?_⟩
  · have hnone : (f.children q).count c = 0 := by
      rw [hf.linked, hfree]
      rfl
    rw [children_attach, parent?_attach]
    by_cases hd : d = c
    · subst hd
      by_cases hq : q = p
      · subst hq
        simp [hp, hc, hnone]
      · simp [hc, hq, hnone, Ne.symm hq]
    · have hlinked := hf.linked q d
      by_cases hq : q = p
      · subst hq
        simp [hp, hd, hlinked, Ne.symm hd]
      · simp [hq, hd, hlinked]
  · rcases above_attach h with h | ⟨hip, hci⟩
    · exact hf.acyclic i h
    · -- the new link would close a circle only inside the tree of the node that is attached
      have hreach := hf.top_of_reaches (hci.trans hip)
      rw [hf.top_eq c, hfree] at hreach
      exact htop hreach.symm

theorem Proper.step (hf : f.Proper) {s : Step} (h : f.Permitted s) : (f.step s).Proper := by
  cases s with
  | alloc label => exact hf.congr (fun _ => parent?_alloc) fun _ => children_alloc
  | attach parent child =>
    obtain ⟨⟨hp, hc⟩, hfree, htop⟩ := h
    exact hf.attach hp hc hfree htop
  | setRoot id => exact hf.congr (fun _ => rfl) fun _ => rfl

/-- **Permitted steps keep a forest proper.** -/
theorem Proper.run (hf : f.Proper) (h : Each Permitted f steps) : (f.run steps).Proper :=
  h.invariant (fun _ _ hf hs => hf.step hs) hf

theorem Proper.of_leads (hf : f.Proper) (h : f.Leads g) : g.Proper := by
  obtain ⟨steps, hsteps, rfl⟩ := h.exists_run
  exact hf.run hsteps

/-! ### Steps that are not permitted -/

/-- No step takes a child away. -/
theorem children_prefix_step (s : Step) : f.children i <+: (f.step s).children i := by
  cases s with
  | alloc label => simp [Forest.step]
  | attach parent child =>
    rw [Forest.step, children_attach]
    split
    · exact List.prefix_append _ _
    · exact List.prefix_rfl
  | setRoot id => exact List.prefix_rfl

theorem children_prefix_run : f.children i <+: (f.run steps).children i := by
  induction steps generalizing f with
  | nil => exact List.prefix_rfl
  | cons s steps ih => exact (children_prefix_step s).trans ih

/-- **Attaching that is not permitted leaves a mark**: no proper forest has all the children that
there are afterwards. -/
theorem Proper.permitted_attach (hf : f.Proper) (hg : g.Proper) (hp : p < f.size) (hc : c < f.size)
    (hkept : ∀ i, (f.attach p c).children i <+: g.children i) : f.Permitted (.attach p c) := by
  have hnew : (f.attach p c).children p = f.children p ++ [c] := children_attach_self hp
  have hlast : g.Holds p c := (hkept p).subset (by simp [hnew])
  have hholds : ∀ a b, f.Holds a b → g.Holds a b := fun a b h =>
    (hkept a).subset ((children_prefix_step (.attach p c)).subset h)
  refine ⟨⟨hp, hc⟩, ?_, ?_⟩
  · by_contra hparent
    obtain ⟨q, hq⟩ := Option.ne_none_iff_exists'.mp hparent
    have hlast' : g.Holds q c := hholds q c (hf.holds_iff.mpr hq)
    obtain rfl : q = p :=
      Option.some.inj ((hg.holds_iff.mp hlast').symm.trans (hg.holds_iff.mp hlast))
    -- the node is now twice among the children of its parent
    have htwice := (hkept q).sublist.count_le c
    rw [hnew, List.count_append, List.count_singleton_self, hf.linked, if_pos hq, hg.linked,
      if_pos (hg.holds_iff.mp hlast)] at htwice
    omega
  · rintro rfl
    -- going down from the top leads to the node and back to the top
    have hdown : g.Reaches (f.top p) p := Relation.ReflTransGen.mono hholds _ _ (hf.reaches_top p)
    exact hg.acyclic _ (.tail' hdown hlast)

/-- **A forest that is proper in the end has grown by permitted steps only.** -/
theorem Proper.permitted_of_run (hf : f.Proper) (hsteps : Each Possible f steps)
    (hend : (f.run steps).Proper) : Each Permitted f steps := by
  induction steps generalizing f with
  | nil => trivial
  | cons s steps ih =>
    obtain ⟨hs, hsteps⟩ := hsteps
    have hpermitted : f.Permitted s := by
      cases s with
      | alloc label => trivial
      | attach p c => exact hf.permitted_attach hend hs.1 hs.2 fun i => children_prefix_run
      | setRoot id => exact hs
    exact ⟨hpermitted, ih (hf.step hpermitted) hsteps hend⟩

end Forest

end PizzaLang
