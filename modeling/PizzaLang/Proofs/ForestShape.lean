import Mathlib.Data.List.Perm.Subperm
import Mathlib.Order.WellFounded
import PizzaLang.Proofs.Confinement
import PizzaLang.Proofs.Resumption

/-!
# The forest is a forest

What is built node by node, from links that are kept as numbers, is a forest: every node has its
place in one tree, and a walk along the links comes to an end.

* `PizzaLang.Forest.Sound` says what is meant, in terms of what forests are used for: going up to
  the top of a tree, collecting nodes of a kind below a node, printing. Proper forests are sound,
  and no others are (`PizzaLang.Forest.Proper.sound`, `PizzaLang.Forest.Sound.proper`).
* The cursor of a unit carries a forest from one attempt to read a program to the next, whether
  they fail or not, and all that happens to it on the way is permitted
  (`PizzaLang.leads_of_attempt`). This is more than that there is a permitted way: it is said of the
  steps in the history of the forest.
* The first attempt has the forest for itself. Its tree has as many nodes as the forest, each of
  them once, so there are no nodes besides (`PizzaLang.lt_size_iff_reaches_of_parse`).

The result is `PizzaLang.forest_of_trees`.
-/

namespace PizzaLang

namespace Forest

variable {f g : Forest}

/-! ### What forests are used for -/

/-- **A sound forest.**

* A node is among the children of its parent, once, and of no other node.
* Links do not go on forever, neither up nor down.
* Going up link by link leads to the top of the tree of a node, and this is the only node of the
  tree that has no parent.
* Nodes of a kind are found by looking at the children, and below each of them if there is none.
* A tree is printed by printing its topmost node and then the trees below it, and from the root on
  this prints a line for each node that is reached from there, once. -/
structure Sound (f : Forest) : Prop where
  linked : ∀ p c, (f.children p).count c = if f.parent? c = some p then 1 else 0
  ends_above : WellFounded fun up i => f.parent? i = some up
  ends_below : WellFounded fun c i => c ∈ f.children i
  top_eq : ∀ i, f.top i = match f.parent? i with
    | some up => f.top up
    | none => i
  top_iff : ∀ i r, r = f.top i ↔ f.parent? r = none ∧ f.InOneTree i r
  nearest_eq : ∀ i kind, f.nearest i kind =
    let direct := (f.children i).filter fun c => (f.get c).kind = kind
    if direct.isEmpty then (f.children i).flatMap (f.nearest · kind) else direct
  lines_eq : ∀ depth i, SyntaxTree.renderLines depth (f.subtree i) =
    SyntaxTree.renderLabel depth (f.labelAt i) ::
      (f.children i).flatMap fun c => SyntaxTree.renderLines (depth + 1) (f.subtree c)
  printed : ∀ root, f.root = some root → ∃ nodes : List (Nat × NodeId),
    f.render = String.join (nodes.map fun p =>
      SyntaxTree.renderLabel p.1 (f.labelAt p.2) ++ "\n") ∧
    (nodes.map Prod.snd).Nodup ∧ ∀ i, i ∈ nodes.map Prod.snd ↔ f.Reaches root i

theorem Sound.proper (hf : f.Sound) : f.Proper := by
  refine ⟨hf.linked, fun i h => ?_⟩
  have hup : WellFounded (Relation.TransGen (Function.swap f.Holds)) := hf.ends_below.transGen
  exact hup.irrefl.irrefl i (Relation.transGen_swap.mpr h)

theorem Proper.sound (hf : f.Proper) : f.Sound where
  linked := hf.linked
  ends_above := hf.wellFounded_up
  ends_below := hf.wellFounded_down
  top_eq := hf.top_eq
  top_iff i r := by
    constructor
    · rintro rfl
      refine ⟨hf.parent?_top i, .symm _ _ ?_⟩
      exact Relation.EqvGen.reflTransGen_le_eqvGen f.Holds _ _ (hf.reaches_top i)
    · exact fun h => hf.eq_top h.2 h.1
  nearest_eq := hf.nearest_eq
  lines_eq := hf.renderLines_subtree
  printed root h := ⟨(f.unfold root).outline 0, render_eq h, hf.nodup_documentOrder root,
    fun _ => hf.mem_documentOrder⟩

end Forest

/-! ### Attempts to read a program -/

/-- **The forest between attempts** is made by permitted steps, and its links are in range. -/
theorem leads_cursorAfter (unit : Path) (tokens : List Token) (j : Nat) :
    Forest.empty.Leads (cursorAfter unit tokens j).forest ∧
    (cursorAfter unit tokens j).forest.InRange := by
  induction j with
  | zero => exact ⟨.refl, Forest.inRange_empty⟩
  | succ j ih =>
    obtain ⟨hleads, hrange⟩ := ih
    rw [cursorAfter]
    rcases hread : (cursorAfter unit tokens j).readProgram with ⟨e | f, s'⟩
    · have herror := congrArg Prod.fst hread
      have hgrows := (Cursor.grows_of_readProgram _).2 e herror
      have hon := (Cursor.leads_of_readProgram _ hrange).2 e herror
      rw [hread] at hgrows hon
      exact ⟨hleads.trans hon, hrange.of_grows hgrows⟩
    · -- the forest is handed over, and the next attempt starts with an empty one
      obtain ⟨root, t, -, -, rfl⟩ := Cursor.readProgram_eq_ok_iff.mp hread
      exact ⟨.refl, Forest.inRange_empty⟩

/-- **An attempt takes permitted steps only**, whether it succeeds or fails. -/
theorem leads_of_attempt (unit : Path) (tokens : List Token) (j : Nat) :
    (∀ f, attempt unit tokens j = .ok f → (cursorAfter unit tokens j).forest.Leads f) ∧
    ∀ e, attempt unit tokens j = .error e →
      (cursorAfter unit tokens j).forest.Leads (cursorAfter unit tokens (j + 1)).forest :=
  Cursor.leads_of_readProgram _ (leads_cursorAfter unit tokens j).2

/-! ### The first attempt -/

/-- The node of a program is made before all others. -/
theorem Reader.root_of_program {s s' : Cursor} {root : NodeId} (h : program s = .ok root s') :
    root = s.forest.size := by
  obtain ⟨first, s₁, hleaf, h⟩ : ∃ first s₁,
      leaf .program s.unit.text (.start s.unit) s = .ok first s₁ ∧
      (collect (do attach first (← statement)) seesAny >>= fun _ => pure first : Reader NodeId) s₁ =
        .ok root s' := ⟨_, _, rfl, h⟩
  obtain ⟨_, s₂, -, h⟩ := Stateful.bind_eq_ok_iff.mp h
  obtain ⟨rfl, -⟩ := Stateful.pure_eq_ok_iff.mp h
  exact (leaf_eq_ok_iff.mp hleaf).1

theorem root_of_parse {unit : Path} {tokens : List Token} {f : Forest}
    (h : parse unit tokens = .ok f) : f.root = some 0 := by
  rw [parse, Cursor.readProgram] at h
  split at h
  · next root s hr =>
    obtain rfl := Except.ok.inj h
    exact congrArg some (Reader.root_of_program hr)
  · cases h

/-- A tree has as many nodes as the forest in which it is made. -/
theorem count_of_parse {unit : Path} {tokens : List Token} {f : Forest}
    (h : parse unit tokens = .ok f) : ∃ tree, f.tree? = some tree ∧ tree.count = f.size := by
  obtain ⟨d, rfl⟩ := exists_derivation_of_parse h
  obtain ⟨root, s, hr, g, hs, hplanted⟩ :=
    Reader.runs_program (s := .ofTokens unit d.tokens) (f := .empty) d ⟨rfl, rfl⟩
  rw [parse, Cursor.readProgram, hr] at h
  obtain rfl := Except.ok.inj h
  rw [hs.forest]
  exact ⟨d.tree unit, hplanted.tree, (hplanted.size.trans (Nat.zero_add _)).symm⟩

theorem proper_of_parse {unit : Path} {tokens : List Token} {f : Forest}
    (h : parse unit tokens = .ok f) : f.Proper :=
  Forest.proper_empty.of_leads
    ((Cursor.leads_of_readProgram (.ofTokens unit tokens) Forest.inRange_empty).1 f h)

/-- **All nodes are in the tree** that a first attempt makes. -/
theorem lt_size_iff_reaches_of_parse {unit : Path} {tokens : List Token} {f : Forest}
    (h : parse unit tokens = .ok f) (i : NodeId) : i < f.size ↔ f.Reaches 0 i := by
  have hf := proper_of_parse h
  obtain ⟨tree, htree, hcount⟩ := count_of_parse h
  rw [Forest.tree?, root_of_parse h] at htree
  obtain rfl : f.subtree 0 = tree := Option.some.inj htree
  -- the tree below the root has no node twice, and as many as there are
  have hlength : (f.documentOrder 0).length = f.size := by
    rw [Forest.documentOrder, Tree.preorder, List.length_map, ← hcount, Forest.subtree,
      ← Tree.length_outline 0, Tree.outline_map, List.length_map]
  have hin : ∀ x ∈ f.documentOrder 0, x < f.size := by
    intro x hx
    rcases Relation.reflTransGen_iff_eq_or_transGen.mp (hf.mem_documentOrder.mp hx) with rfl | hx
    · rw [← hlength]
      exact List.length_pos_of_mem hx
    · exact hf.lt_size_of_above hx
  have hperm : (f.documentOrder 0).Perm (List.range f.size) := by
    refine List.Subperm.perm_of_length_le ?_ ?_
    · exact (hf.nodup_documentOrder 0).subperm fun x hx => List.mem_range.mpr (hin x hx)
    · exact Nat.le_of_eq (List.length_range.trans hlength.symm)
  rw [← List.mem_range, ← hperm.mem_iff, hf.mem_documentOrder]

/-- **The forest is always a forest.**

* Permitted steps lead only to sound forests, and all links in them lead to nodes. Steps that name
  only nodes which are there, and lead to a sound forest, are permitted.
* However often one tries to read a program from the tokens of a unit, and whether the attempts
  succeed or fail, all steps in the history of the forest are permitted.
* If the first attempt succeeds, the root is the first node, and the nodes are those that are
  reached from it. -/
theorem forest_of_trees :
    (∀ steps, Forest.Each Forest.Permitted .empty steps →
      (Forest.empty.run steps).Sound ∧ (Forest.empty.run steps).InRange) ∧
    (∀ steps, Forest.Each Forest.Possible .empty steps → (Forest.empty.run steps).Sound →
      Forest.Each Forest.Permitted .empty steps) ∧
    (∀ unit tokens j,
      Forest.empty.Leads (cursorAfter unit tokens j).forest ∧
      (∀ f, attempt unit tokens j = .ok f → (cursorAfter unit tokens j).forest.Leads f) ∧
      ∀ e, attempt unit tokens j = .error e →
        (cursorAfter unit tokens j).forest.Leads (cursorAfter unit tokens (j + 1)).forest) ∧
    ∀ unit tokens f, parse unit tokens = .ok f →
      f.root = some 0 ∧ ∀ i, i < f.size ↔ f.Reaches 0 i := by
  refine ⟨fun steps hsteps => ⟨?_, ?_⟩, fun steps hsteps hsound => ?_, fun unit tokens j => ?_,
    fun unit tokens f hf => ?_⟩
  · exact (Forest.proper_empty.run hsteps).sound
  · exact Forest.inRange_empty.run (hsteps.imp fun _ _ => Forest.Permitted.possible)
  · exact Forest.proper_empty.permitted_of_run hsteps hsound.proper
  · exact ⟨(leads_cursorAfter unit tokens j).1, leads_of_attempt unit tokens j⟩
  · exact ⟨root_of_parse hf, lt_size_iff_reaches_of_parse hf⟩

/-- Three nodes in one line, where the last is attached before the second is. -/
def outOfOrder : List Forest.Step :=
  (["a", "b", "c"].map fun value => .alloc ⟨.literal, value, ⟨1, 1, ⟨"main.pf"⟩⟩⟩) ++
    [.attach 1 2, .setRoot 0, .attach 0 1]

/-- Two nodes, of which one is attached to the other twice. -/
def attachedTwice : List Forest.Step :=
  (["a", "b"].map fun value => .alloc ⟨.literal, value, ⟨1, 1, ⟨"main.pf"⟩⟩⟩) ++
    [.attach 0 1, .attach 0 1]

/-- Nodes attached out of order, a node attached twice, two attempts that fail before one succeeds,
and a first attempt that does. -/
theorem forest_of_trees_stumbling :
    (Forest.empty.run outOfOrder).Sound ∧ (Forest.empty.run outOfOrder).InRange ∧
    ¬(Forest.empty.run attachedTwice).Sound ∧
    (∃ e, attempt ⟨"main.pf"⟩ stumbling 1 = .error e ∧
      (cursorAfter ⟨"main.pf"⟩ stumbling 1).forest.Leads
        (cursorAfter ⟨"main.pf"⟩ stumbling 2).forest) ∧
    (∃ f, attempt ⟨"main.pf"⟩ stumbling 2 = .ok f ∧
      (cursorAfter ⟨"main.pf"⟩ stumbling 2).forest.Leads f) ∧
    ∃ f, parse ⟨"main.pf"⟩ (stumbling.drop 2) = .ok f ∧ f.root = some 0 ∧
      ∀ i, i < f.size ↔ f.Reaches 0 i := by
  obtain ⟨hsteps, hconverse, hattempts, hparse⟩ := forest_of_trees
  have herror : ∀ {r : Except SyntaxError Forest}, r.toBool = false → ∃ e, r = .error e := by
    rintro (e | f) h
    · exact ⟨e, rfl⟩
    · cases h
  have hok : ∀ {r : Except SyntaxError Forest}, r.toBool = true → ∃ f, r = .ok f := by
    rintro (e | f) h
    · cases h
    · exact ⟨f, rfl⟩
  obtain ⟨e, he⟩ := herror (r := attempt ⟨"main.pf"⟩ stumbling 1) (by decide +kernel)
  obtain ⟨f, hf⟩ := hok (r := attempt ⟨"main.pf"⟩ stumbling 2) (by decide +kernel)
  obtain ⟨g, hg⟩ := hok (r := parse ⟨"main.pf"⟩ (stumbling.drop 2)) (by decide +kernel)
  obtain ⟨-, -, hfails⟩ := hattempts ⟨"main.pf"⟩ stumbling 1
  obtain ⟨-, hreads, -⟩ := hattempts ⟨"main.pf"⟩ stumbling 2
  obtain ⟨hsound, hrange⟩ := hsteps outOfOrder (by decide)
  have hunsound : ¬(Forest.empty.run attachedTwice).Sound := fun h =>
    absurd (hconverse attachedTwice (by decide) h) (by decide)
  exact ⟨hsound, hrange, hunsound, ⟨e, he, hfails e he⟩, ⟨f, hf, hreads f hf⟩, g, hg,
    hparse _ _ g hg⟩

end PizzaLang
