import PizzaLang.Forest

/-!
# Trees that grow in a forest

A tree is put together in a forest node by node: a node is made, further nodes are made and
attached, and nodes that were there before stay as they are. Two relations between the forest
before and the forest after say what a piece of such work has achieved.

* `PizzaLang.Forest.Planted f f' id t`: the nodes that are new in `f'` make up the tree `t`,
  whose topmost node is `id`;
* `PizzaLang.Forest.Hung f f' p ts`: the nodes that are new in `f'` make up the trees `ts`,
  which hang from the node `p`, behind what hung from it before.

A planted tree can be read off the forest (`PizzaLang.Forest.Planted.tree`), and the relations
compose: trees hung one after the other hang together (`PizzaLang.Forest.Hung.trans`), and a
node with what hangs from it is a planted tree (`PizzaLang.Forest.Hung.planted`).
-/

namespace PizzaLang

namespace Tree

variable {α : Type}

mutual

/-- How many nodes a tree has. -/
def count : Tree α → Nat
  | node _ ts => countAll ts + 1

/-- How many nodes some trees have. -/
def countAll : List (Tree α) → Nat
  | [] => 0
  | t :: ts => count t + countAll ts

end

theorem countAll_append (ts us : List (Tree α)) :
    countAll (ts ++ us) = countAll ts + countAll us := by
  induction ts with
  | nil => simp [countAll]
  | cons t ts ih =>
    rw [List.cons_append, countAll, countAll, ih]
    omega

end Tree

namespace Forest

open PizzaLang.Tree

variable {f f' f'' : Forest} {i p c id : Nat} {l : NodeLabel} {t u : SyntaxTree}
  {ts us : List SyntaxTree}

/-! ### What a step changes -/

/-- The label of a node. -/
def labelAt (f : Forest) (i : Nat) : NodeLabel := (f.get i).toNodeLabel

@[simp] theorem size_alloc : (f.alloc l).2.size = f.size + 1 := by
  simp [alloc, size]

theorem lt_size_alloc : f.size < (f.alloc l).2.size :=
  Nat.lt_of_lt_of_eq (Nat.lt_succ_self _) size_alloc.symm

@[simp] theorem size_attach : (f.attach p c).size = f.size := by
  simp [attach, size]

theorem get_alloc_of_ne (h : i ≠ f.size) : (f.alloc l).2.get i = f.get i := by
  rw [size] at h
  simp [alloc, get, Array.getElem?_push, h]

theorem get_alloc_size : (f.alloc l).2.get f.size = ⟨l, none, []⟩ := by
  simp [alloc, get, size]

theorem labelAt_attach : (f.attach p c).labelAt i = f.labelAt i := by
  simp only [labelAt, attach, get, Array.getD_eq_getD_getElem?, Array.getElem?_modify]
  cases f.nodes[i]? with
  | none => simp
  | some n => split <;> split <;> rfl

theorem children_attach :
    (f.attach p c).children i =
      if i = p ∧ p < f.size then f.children i ++ [c] else f.children i := by
  simp only [children, attach, get, size, Array.getD_eq_getD_getElem?, Array.getElem?_modify]
  by_cases hp : p = i
  · subst hp
    by_cases hlt : p < f.nodes.size
    · simp only [hlt, Array.getElem?_eq_getElem hlt, if_true, and_self]
      split <;> rfl
    · simp [hlt]
  · have hp' : ¬(i = p ∧ p < f.nodes.size) := fun h => hp h.1.symm
    rw [if_neg hp, if_neg hp']
    cases f.nodes[i]? with
    | none => simp
    | some n => split <;> rfl

theorem children_attach_of_ne (h : i ≠ p) : (f.attach p c).children i = f.children i := by
  rw [children_attach, if_neg fun hp => h hp.1]

theorem children_attach_self (h : p < f.size) :
    (f.attach p c).children p = f.children p ++ [c] := by
  rw [children_attach, if_pos ⟨rfl, h⟩]

/-- A node is in one forest what it is in another. -/
def Alike (f f' : Forest) (i : Nat) : Prop :=
  f'.labelAt i = f.labelAt i ∧ f'.children i = f.children i

theorem Alike.refl : f.Alike f i := ⟨rfl, rfl⟩

theorem Alike.trans (h : f.Alike f' i) (h' : f'.Alike f'' i) : f.Alike f'' i :=
  ⟨h'.1.trans h.1, h'.2.trans h.2⟩

theorem alike_alloc (h : i < f.size) : f.Alike (f.alloc l).2 i := by
  rw [Alike, labelAt, labelAt, children, children, get_alloc_of_ne (Nat.ne_of_lt h)]
  exact ⟨rfl, rfl⟩

theorem alike_attach (h : i ≠ p) : f.Alike (f.attach p c) i :=
  ⟨labelAt_attach, children_attach_of_ne h⟩

theorem labelAt_alloc_size : (f.alloc l).2.labelAt f.size = l := by
  rw [labelAt, get_alloc_size]

theorem children_alloc_size : (f.alloc l).2.children f.size = [] := by
  rw [children, get_alloc_size]

/-! ### Trees in a forest -/

mutual

/-- **A forest shows a tree** at a node: following the links down from the node gives the tree,
and meets only nodes that were made from a certain time on. -/
def Shows (f : Forest) (since : Nat) : Nat → SyntaxTree → Prop
  | id, .node l ts =>
    since ≤ id ∧ id < f.size ∧ f.labelAt id = l ∧ ShowsAll f since (f.children id) ts

/-- A forest shows trees at some nodes, one at each. -/
def ShowsAll (f : Forest) (since : Nat) : List Nat → List SyntaxTree → Prop
  | ids, [] => ids = []
  | ids, t :: ts => ∃ id rest, ids = id :: rest ∧ Shows f since id t ∧ ShowsAll f since rest ts

end

mutual

/-- What a forest shows is still there after changes to older nodes. -/
theorem Shows.mono {since since' : Nat} {id : Nat} {t : SyntaxTree} (h : f.Shows since id t)
    (hsince : since' ≤ since) (hsize : f.size ≤ f'.size)
    (hnodes : ∀ i, since ≤ i → i < f.size → f.Alike f' i) : f'.Shows since' id t := by
  match t with
  | .node l ts =>
    obtain ⟨hle, hlt, hlabel, hchildren⟩ := h
    obtain ⟨hl, hc⟩ := hnodes id hle hlt
    rw [Shows, hl, hc]
    exact ⟨Nat.le_trans hsince hle, Nat.lt_of_lt_of_le hlt hsize, hlabel,
      hchildren.mono hsince hsize hnodes⟩

theorem ShowsAll.mono {since since' : Nat} {ids : List Nat} {ts : List SyntaxTree}
    (h : f.ShowsAll since ids ts) (hsince : since' ≤ since) (hsize : f.size ≤ f'.size)
    (hnodes : ∀ i, since ≤ i → i < f.size → f.Alike f' i) : f'.ShowsAll since' ids ts := by
  match ts with
  | [] => exact h
  | t :: ts =>
    obtain ⟨id, rest, hids, ht, hts⟩ := h
    exact ⟨id, rest, hids, ht.mono hsince hsize hnodes, hts.mono hsince hsize hnodes⟩

end

theorem ShowsAll.append {since : Nat} {ids ids' : List Nat} (h : f.ShowsAll since ids ts)
    (h' : f.ShowsAll since ids' us) : f.ShowsAll since (ids ++ ids') (ts ++ us) := by
  induction ts generalizing ids with
  | nil =>
    obtain rfl : ids = [] := h
    exact h'
  | cons t ts ih =>
    obtain ⟨id, rest, rfl, ht, hts⟩ := h
    exact ⟨id, rest ++ ids', rfl, ht, ih hts⟩

mutual

/-- **A tree that is shown is found** by following the links deep enough. -/
theorem Shows.unfoldTo {since depth : Nat} {id : Nat} {t : SyntaxTree} (h : f.Shows since id t)
    (hdepth : t.count ≤ depth) :
    (f.unfoldTo depth id).map f.labelAt = t := by
  match t, depth with
  | .node l ts, depth + 1 =>
    obtain ⟨-, -, hlabel, hchildren⟩ := h
    rw [count, Nat.add_le_add_iff_right] at hdepth
    rw [Forest.unfoldTo, Tree.map, hlabel, hchildren.unfoldTo hdepth]

theorem ShowsAll.unfoldTo {since depth : Nat} {ids : List Nat} {ts : List SyntaxTree}
    (h : f.ShowsAll since ids ts) (hdepth : countAll ts ≤ depth) :
    mapAll f.labelAt (ids.map (f.unfoldTo depth)) = ts := by
  match ts with
  | [] =>
    obtain rfl : ids = [] := h
    rfl
  | t :: ts =>
    obtain ⟨id, rest, rfl, ht, hts⟩ := h
    rw [countAll] at hdepth
    rw [List.map_cons, mapAll, ht.unfoldTo (by omega), hts.unfoldTo (by omega)]

end

/-! ### Growing -/

/-- **A tree has been planted**: the nodes made since are those of the tree, and the older ones
are as they were. -/
structure Planted (f f' : Forest) (id : Nat) (t : SyntaxTree) : Prop where
  size : f'.size = f.size + t.count
  older : ∀ i < f.size, f.Alike f' i
  shown : f'.Shows f.size id t

/-- **Trees have been hung from a node**, the last of its children: the nodes made since are
those of the trees, and the older ones are as they were but for that node. -/
structure Hung (f f' : Forest) (p : Nat) (ts : List SyntaxTree) : Prop where
  size : f'.size = f.size + countAll ts
  older : ∀ i < f.size, i ≠ p → f.Alike f' i
  label : f'.labelAt p = f.labelAt p
  shown : ∃ ids, f'.children p = f.children p ++ ids ∧ f'.ShowsAll f.size ids ts

theorem Planted.subtree (h : Planted f f' id t) : f'.subtree id = t := by
  have hcount : t.count ≤ f'.size := by
    rw [h.size]
    exact Nat.le_add_left _ _
  exact h.shown.unfoldTo hcount

/-- Marking a node leaves what is planted as it is. -/
theorem Planted.setRoot (h : Planted f f' id t) (root : NodeId) :
    Planted f (f'.setRoot root) id t :=
  ⟨h.size, h.older, h.shown.mono (Nat.le_refl _) (Nat.le_refl _) fun _ _ _ => ⟨rfl, rfl⟩⟩

/-- **A planted tree is read off the forest** once its topmost node is marked. -/
theorem Planted.tree (h : Planted f f' id t) : (f'.setRoot id).tree? = some t :=
  congrArg some (h.setRoot id).subtree

theorem Hung.refl : Hung f f p [] :=
  ⟨rfl, fun _ _ _ => .refl, rfl, [], (List.append_nil _).symm, rfl⟩

theorem Hung.lt_size (h : Hung f f' p ts) (hi : i < f.size) : i < f'.size := by
  rw [h.size]
  exact Nat.lt_add_right _ hi

/-- Trees that are hung one after the other hang together. -/
theorem Hung.trans (h : Hung f f' p ts) (h' : Hung f' f'' p us) (hp : p < f.size) :
    Hung f f'' p (ts ++ us) := by
  have hsize := h.size
  have hsize' := h'.size
  refine ⟨?_, fun i hi hne => ?_, h'.label.trans h.label, ?_⟩
  · rw [countAll_append, hsize', hsize, Nat.add_assoc]
  · exact (h.older i hi hne).trans (h'.older i (by omega) hne)
  · obtain ⟨ids, hids, hts⟩ := h.shown
    obtain ⟨ids', hids', hus⟩ := h'.shown
    refine ⟨ids ++ ids', by rw [hids', hids, List.append_assoc], ?_⟩
    -- the node they all hang from is older than the trees
    have hkept : ∀ i, f.size ≤ i → i < f'.size → f'.Alike f'' i :=
      fun i hle hlt => h'.older i hlt (by omega)
    exact (hts.mono (Nat.le_refl _) (by omega) hkept).append
      (hus.mono (by omega) (Nat.le_refl _) fun _ _ _ => .refl)

/-- **A node with the trees that hang from it** is a tree of its own. -/
theorem Hung.planted (h : Hung (f.alloc l).2 f' f.size ts) : Planted f f' f.size (.node l ts) := by
  have hsize := h.size
  rw [size_alloc] at hsize
  refine ⟨by rw [hsize, count]; omega, fun i hi => ?_, ?_⟩
  · exact (alike_alloc hi).trans (h.older i (by rw [size_alloc]; omega) (by omega))
  · obtain ⟨ids, hids, hts⟩ := h.shown
    rw [children_alloc_size, List.nil_append] at hids
    rw [Shows, hids, h.label, labelAt_alloc_size]
    exact ⟨Nat.le_refl _, by omega, rfl,
      hts.mono (by rw [size_alloc]; omega) (Nat.le_refl _) fun _ _ _ => .refl⟩

/-- A planted tree is hung from an older node by attaching it. -/
theorem Planted.attach (h : Planted f f' id t) (hp : p < f.size) :
    Hung f (f'.attach p id) p [t] := by
  have hsize := h.size
  refine ⟨?_, fun i hi hne => ?_, ?_, [id], ?_, ?_⟩
  · rw [size_attach, hsize, countAll, countAll]
    omega
  · exact (h.older i hi).trans (alike_attach hne)
  · rw [labelAt_attach]
    exact (h.older p hp).1
  · rw [children_attach_self (by omega), (h.older p hp).2]
  · have hkept : ∀ i, f.size ≤ i → i < f'.size → f'.Alike (f'.attach p id) i :=
      fun i hle _ => alike_attach (by omega)
    exact ⟨id, [], rfl, h.shown.mono (Nat.le_refl _) (Nat.le_of_eq size_attach.symm) hkept, rfl⟩

/-- A node may be attached first and get its children afterwards. -/
theorem Hung.below (h : Hung ((f.alloc l).2.attach p f.size) f' f.size ts) (hp : p < f.size) :
    Hung f f' p [.node l ts] := by
  have hsize := h.size
  rw [size_attach, size_alloc] at hsize
  -- the new node is not the one it hangs from, which keeps what it got when the node was attached
  have hp' : f.size ≠ p := by omega
  have hkept : Alike ((f.alloc l).2.attach p f.size) f' p :=
    h.older p (by rw [size_attach, size_alloc]; omega) (by omega)
  refine ⟨?_, fun i hi hne => ?_, ?_, [f.size], ?_, ?_⟩
  · rw [hsize, countAll, countAll, count]
    omega
  · exact ((alike_alloc hi).trans (alike_attach hne)).trans
      (h.older i (by rw [size_attach, size_alloc]; omega) (by omega))
  · rw [hkept.1, labelAt_attach]
    exact (alike_alloc hp).1
  · rw [hkept.2, children_attach_self (by rw [size_alloc]; omega), (alike_alloc hp).2]
  · obtain ⟨ids, hids, hts⟩ := h.shown
    rw [children_attach_of_ne hp', children_alloc_size, List.nil_append] at hids
    refine ⟨f.size, [], rfl, ?_, rfl⟩
    rw [Shows, hids, h.label, labelAt_attach, labelAt_alloc_size]
    exact ⟨Nat.le_refl _, by omega, rfl,
      hts.mono (by rw [size_attach, size_alloc]; omega) (Nat.le_refl _) fun _ _ _ => .refl⟩

/-- **Two planted trees become the operands of a new node.** -/
theorem Planted.binary {a b : Nat} {f₁ f₂ : Forest} (ht : Planted f f₁ a t)
    (hu : Planted f₁ f₂ b u) :
    Planted f (((f₂.alloc l).2.attach f₂.size a).attach f₂.size b) f₂.size (.node l [t, u]) := by
  have hsize₁ := ht.size
  have hsize₂ := hu.size
  have hnew : f₂.size < (f₂.alloc l).2.size := lt_size_alloc
  have hkept : ∀ i < f₂.size, f₂.Alike (((f₂.alloc l).2.attach f₂.size a).attach f₂.size b) i :=
    fun i hi => ((alike_alloc hi).trans (alike_attach (by omega))).trans (alike_attach (by omega))
  refine ⟨?_, fun i hi => ?_, ?_⟩
  · simp only [size_attach, size_alloc, count, countAll]
    omega
  · exact ((ht.older i hi).trans (hu.older i (by omega))).trans (hkept i (by omega))
  · rw [Shows, children_attach_self (by rw [size_attach]; exact hnew), children_attach_self hnew,
      children_alloc_size, labelAt_attach, labelAt_attach, labelAt_alloc_size]
    refine ⟨by omega, ?_, rfl, a, [b], rfl, ?_, b, [], rfl, ?_, rfl⟩
    · simp only [size_attach]
      exact hnew
    · refine ht.shown.mono (Nat.le_refl _) (by simp only [size_attach]; omega) fun i _ hi => ?_
      exact (hu.older i hi).trans (hkept i (by omega))
    · exact hu.shown.mono (by omega) (by simp only [size_attach]; omega)
        fun i _ hi => hkept i hi

end Forest

end PizzaLang
