import PizzaLang.Proofs.Planting

/-!
# Outlines of trees

A tree that is printed line by line becomes flat: what is left of its shape is the depth of each
line. The *outline* of a tree is that list, the labels in document order, each with the depth at
which it stands (`PizzaLang.Tree.outline`). Printing a tree is writing down its outline
(`PizzaLang.SyntaxTree.renderLines_eq`).

Nothing is lost on the way. A tree ends where the outline comes back to its own depth, so the
outline determines the tree (`PizzaLang.Tree.outlineAll_injective`).
-/

namespace PizzaLang

namespace Tree

variable {α β : Type} {depth : Nat}

mutual

/-- **The outline of a tree** whose topmost node has the given depth: all labels in document
order, each with its depth. -/
def outline (depth : Nat) : Tree α → List (Nat × α)
  | node a ts => (depth, a) :: outlineAll (depth + 1) ts

/-- The outlines of trees that stand at one depth, one after the other. -/
def outlineAll (depth : Nat) : List (Tree α) → List (Nat × α)
  | [] => []
  | t :: ts => outline depth t ++ outlineAll depth ts

end

/-- **The labels in document order**: a label comes before those below it, and these come in the
order of the trees they are in. -/
def preorder (t : Tree α) : List α := (t.outline 0).map Prod.snd

theorem outlineAll_eq_flatMap (ts : List (Tree α)) :
    outlineAll depth ts = ts.flatMap (outline depth) := by
  induction ts with
  | nil => rfl
  | cons t ts ih => rw [outlineAll, List.flatMap_cons, ih]

mutual

theorem length_outline (depth : Nat) (t : Tree α) : (t.outline depth).length = t.count := by
  match t with
  | node a ts => rw [outline, List.length_cons, length_outlineAll, count]

theorem length_outlineAll (depth : Nat) (ts : List (Tree α)) :
    (outlineAll depth ts).length = countAll ts := by
  match ts with
  | [] => rfl
  | t :: ts =>
    rw [outlineAll, List.length_append, length_outline, length_outlineAll, countAll]

end

mutual

theorem outline_map (depth : Nat) (g : α → β) (t : Tree α) :
    (t.map g).outline depth = (t.outline depth).map (Prod.map id g) := by
  match t with
  | node a ts =>
    rw [map, outline, outline, List.map_cons, outlineAll_mapAll]
    rfl

theorem outlineAll_mapAll (depth : Nat) (g : α → β) (ts : List (Tree α)) :
    outlineAll depth (mapAll g ts) = (outlineAll depth ts).map (Prod.map id g) := by
  match ts with
  | [] => rfl
  | t :: ts =>
    rw [mapAll, outlineAll, outlineAll, List.map_append, outline_map, outlineAll_mapAll]

end

mutual

/-- The labels do not depend on the depth that one starts to count from. -/
theorem map_snd_outline (depth : Nat) (t : Tree α) :
    (t.outline depth).map Prod.snd = t.label :: t.children.flatMap preorder := by
  match t with
  | node a ts =>
    rw [outline, List.map_cons, map_snd_outlineAll]
    rfl

theorem map_snd_outlineAll (depth : Nat) (ts : List (Tree α)) :
    (outlineAll depth ts).map Prod.snd = ts.flatMap preorder := by
  match ts with
  | [] => rfl
  | t :: ts =>
    rw [outlineAll, List.map_append, List.flatMap_cons, map_snd_outlineAll, map_snd_outline,
      preorder, map_snd_outline]

end

theorem preorder_eq (t : Tree α) : t.preorder = t.label :: t.children.flatMap preorder :=
  map_snd_outline 0 t

/-! ### From the outline back to the tree -/

/-- **An outline is shallow** from here on: if it goes on, then above a certain depth. -/
def Shallow (depth : Nat) (rest : List (Nat × α)) : Prop := ∀ p ∈ rest.head?, p.1 < depth

theorem shallow_nil : Shallow depth ([] : List (Nat × α)) := fun _ h => absurd h (by simp)

theorem Shallow.mono {rest : List (Nat × α)} (h : Shallow depth rest) : Shallow (depth + 1) rest :=
  fun p hp => Nat.lt_succ_of_lt (h p hp)

/-- What follows a tree is another one beside it, or has come up. -/
theorem shallow_outlineAll {rest : List (Nat × α)} (h : Shallow depth rest) (ts : List (Tree α)) :
    Shallow (depth + 1) (outlineAll depth ts ++ rest) := by
  match ts with
  | [] => exact h.mono
  | node a us :: ts =>
    intro p hp
    obtain rfl : (depth, a) = p := by simpa [outlineAll, outline] using hp
    exact Nat.lt_succ_self depth

/-- A tree starts at its own depth, and not above it. -/
theorem not_shallow_outline {rest : List (Nat × α)} (t : Tree α) :
    ¬Shallow depth (t.outline depth ++ rest) := by
  match t with
  | node a ts => exact fun h => Nat.lt_irrefl depth (h (depth, a) rfl)

mutual

/-- **The end of a tree is found in its outline**, and so is the tree. -/
theorem outline_append_inj {depth : Nat} {t u : Tree α} {rest rest' : List (Nat × α)}
    (hrest : Shallow (depth + 1) rest) (hrest' : Shallow (depth + 1) rest')
    (h : t.outline depth ++ rest = u.outline depth ++ rest') : t = u ∧ rest = rest' := by
  match t, u with
  | node a ts, node b us =>
    obtain ⟨hlabel, htail⟩ := List.cons.inj h
    obtain ⟨rfl, rfl⟩ := outlineAll_append_inj hrest hrest' htail
    obtain rfl : a = b := congrArg Prod.snd hlabel
    exact ⟨rfl, rfl⟩

theorem outlineAll_append_inj {depth : Nat} {ts us : List (Tree α)} {rest rest' : List (Nat × α)}
    (hrest : Shallow depth rest) (hrest' : Shallow depth rest')
    (h : outlineAll depth ts ++ rest = outlineAll depth us ++ rest') : ts = us ∧ rest = rest' := by
  match ts, us with
  | [], [] => exact ⟨rfl, h⟩
  | [], u :: us =>
    rw [outlineAll, outlineAll, List.nil_append, List.append_assoc] at h
    exact absurd (h ▸ hrest) (not_shallow_outline u)
  | t :: ts, [] =>
    rw [outlineAll, outlineAll, List.nil_append, List.append_assoc] at h
    exact absurd (h ▸ hrest') (not_shallow_outline t)
  | t :: ts, u :: us =>
    rw [outlineAll, outlineAll, List.append_assoc, List.append_assoc] at h
    obtain ⟨rfl, htail⟩ :=
      outline_append_inj (shallow_outlineAll hrest ts) (shallow_outlineAll hrest' us) h
    obtain ⟨rfl, rfl⟩ := outlineAll_append_inj hrest hrest' htail
    exact ⟨rfl, rfl⟩

end

/-- **The outline of some trees determines the trees.** -/
theorem outlineAll_injective {ts us : List (Tree α)}
    (h : outlineAll depth ts = outlineAll depth us) : ts = us := by
  rw [← List.append_nil (outlineAll depth ts), ← List.append_nil (outlineAll depth us)] at h
  exact (outlineAll_append_inj shallow_nil shallow_nil h).1

end Tree

/-! ### Printing -/

namespace SyntaxTree

mutual

/-- **A tree is printed by its outline**, a line for each entry. -/
theorem renderLines_eq (depth : Nat) (t : SyntaxTree) :
    renderLines depth t = (t.outline depth).map fun p => renderLabel p.1 p.2 := by
  match t with
  | .node label children =>
    rw [renderLines, Tree.outline, List.map_cons, renderLinesAll_eq]

theorem renderLinesAll_eq (depth : Nat) (ts : List SyntaxTree) :
    renderLinesAll depth ts = (Tree.outlineAll depth ts).map fun p => renderLabel p.1 p.2 := by
  match ts with
  | [] => rfl
  | t :: ts =>
    rw [renderLinesAll, Tree.outlineAll, List.map_append, renderLines_eq, renderLinesAll_eq]

end

end SyntaxTree

end PizzaLang
