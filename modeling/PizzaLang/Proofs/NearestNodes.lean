import PizzaLang.Proofs.Linkage

/-!
# The nearest nodes of a kind

To find the nodes of a kind below a node one looks at its children, and only if none of them is of
the kind, below each of them. The search so stops at different depths in different branches, and a
node is passed over when another of the kind is closer, even if that is in another branch.

What is found are the nodes of the kind to which the way is *clear*: of the nodes from the first one
on that are above the parent, none has a child of the kind (`PizzaLang.Forest.Clear`,
`PizzaLang.Forest.Proper.mem_nearest_iff`). That they come in document order is shown along the
search (`PizzaLang.Forest.Proper.nearest_sublist`), and the rest follows from the two. The result
is `PizzaLang.Forest.nearest_exact`.
-/

namespace PizzaLang

namespace Forest

variable {f : Forest} {i p c a b m : NodeId} {kind : NodeKind}

/-- **The way down is clear** from a node to another: of the nodes on it, the first one included
and the last one not, none has a child of the kind. -/
def Clear (f : Forest) (kind : NodeKind) (i p : NodeId) : Prop :=
  ∀ a, f.Reaches i a → f.Above a p → ∀ c ∈ f.children a, (f.get c).kind ≠ kind

namespace Proper

variable (hf : f.Proper)

include hf

/-- **Where the search stops, and where it goes on.** -/
theorem nearest_cases (i : NodeId) (kind : NodeKind) :
    ((∃ c ∈ f.children i, (f.get c).kind = kind) ∧
      f.nearest i kind = (f.children i).filter fun c => (f.get c).kind = kind) ∨
    (∀ c ∈ f.children i, (f.get c).kind ≠ kind) ∧
      f.nearest i kind = (f.children i).flatMap (f.nearest · kind) := by
  rw [hf.nearest_eq]
  by_cases h : ((f.children i).filter fun c => (f.get c).kind = kind) = []
  · refine Or.inr ⟨fun c hc hkind => ?_, by simp only [h, List.isEmpty_nil, if_true]⟩
    exact List.filter_eq_nil_iff.mp h c hc (decide_eq_true hkind)
  · refine Or.inl ⟨?_, if_neg fun hempty => h (List.isEmpty_iff.mp hempty)⟩
    obtain ⟨c, hc⟩ := List.exists_mem_of_ne_nil _ h
    exact ⟨c, (List.mem_filter.mp hc).1, of_decide_eq_true (List.mem_filter.mp hc).2⟩

theorem above_of_mem_nearest (h : m ∈ f.nearest i kind) : f.Above i m := by
  induction i using hf.induction with
  | h i ih =>
    rcases hf.nearest_cases i kind with ⟨-, heq⟩ | ⟨-, heq⟩
    · rw [heq] at h
      exact .single (List.mem_filter.mp h).1
    · rw [heq] at h
      obtain ⟨c, hc, hm⟩ := List.mem_flatMap.mp h
      exact .head hc (ih c hc hm)

/-- Below a node, the way goes through the one child that leads there. -/
theorem clear_iff_of_holds (hc : f.Holds i c) (hp : f.Reaches c p) :
    f.Clear kind i p ↔ (∀ d ∈ f.children i, (f.get d).kind ≠ kind) ∧ f.Clear kind c p := by
  constructor
  · exact fun h => ⟨h i .refl (.head' hc hp), fun a ha => h a (.head hc ha)⟩
  · rintro ⟨hfirst, hrest⟩ a ha hap
    rcases Relation.ReflTransGen.cases_head_iff.mp ha with rfl | ⟨d, hd, hda⟩
    · exact hfirst
    · obtain rfl : d = c := hf.eq_of_reaches hd hc (hda.trans hap.to_reflTransGen) hp
      exact hrest a hda hap

/-- **A node below another is found exactly if** it is of the kind and the way to its parent is
clear. -/
theorem mem_nearest_iff (hm : f.Above i m) (hp : f.parent? m = some p) :
    m ∈ f.nearest i kind ↔ (f.get m).kind = kind ∧ f.Clear kind i p := by
  induction i using hf.induction with
  | h i ih =>
    obtain ⟨c, hc, hcm⟩ := Relation.TransGen.head'_iff.mp hm
    rcases Relation.reflTransGen_iff_eq_or_transGen.mp hcm with rfl | hcm
    · -- a child is found if it is of the kind, and there is no way to be cleared
      obtain rfl : p = i := Option.some.inj (hp.symm.trans (hf.holds_iff.mp hc))
      have hclear : f.Clear kind p p := fun a hpa hap =>
        absurd (Relation.TransGen.trans_right hpa hap) (hf.acyclic p)
      rw [and_iff_left hclear]
      rcases hf.nearest_cases p kind with ⟨-, heq⟩ | ⟨hnone, heq⟩
      · rw [heq, List.mem_filter, decide_eq_true_eq]
        exact and_iff_right hc
      · refine iff_of_false (fun hmem => ?_) (hnone m hc)
        rw [heq] at hmem
        obtain ⟨d, hd, hmd⟩ := List.mem_flatMap.mp hmem
        have hdm := hf.above_of_mem_nearest hmd
        obtain rfl : d = m := hf.eq_of_reaches hd hc hdm.to_reflTransGen .refl
        exact hf.acyclic d hdm
    · -- a node further below is found below the child that leads to it, if there are no children
      -- of the kind
      have hcp := hf.reaches_of_above hcm hp
      rw [hf.clear_iff_of_holds hc hcp, and_left_comm, ← ih c hc hcm]
      rcases hf.nearest_cases i kind with ⟨⟨d, hd, hkind⟩, heq⟩ | ⟨hnone, heq⟩
      · refine iff_of_false (fun hmem => ?_) fun h => h.1 d hd hkind
        rw [heq] at hmem
        have him : f.Holds i m := (List.mem_filter.mp hmem).1
        obtain rfl := hf.eq_of_reaches hc him hcm.to_reflTransGen .refl
        exact hf.acyclic c hcm
      · rw [and_iff_right hnone, heq, List.mem_flatMap]
        refine ⟨fun ⟨d, hd, hmd⟩ => ?_, fun h => ⟨c, hc, h⟩⟩
        have hdm := hf.above_of_mem_nearest hmd
        obtain rfl := hf.eq_of_reaches hc hd hcm.to_reflTransGen hdm.to_reflTransGen
        exact hmd

/-- **The search goes in document order.** -/
theorem nearest_sublist (i : NodeId) (kind : NodeKind) :
    (f.nearest i kind).Sublist (f.documentOrder i) := by
  induction i using hf.induction with
  | h i ih =>
    rw [hf.documentOrder_eq]
    refine List.Sublist.cons i ?_
    rcases hf.nearest_cases i kind with ⟨-, heq⟩ | ⟨-, heq⟩
    · have hchildren : (f.children i).Sublist ((f.children i).flatMap f.documentOrder) := by
        conv_lhs => rw [← List.flatMap_singleton' (f.children i)]
        refine List.Sublist.flatMap_right _ fun c _ => ?_
        rw [hf.documentOrder_eq]
        exact List.singleton_sublist.mpr List.mem_cons_self
      rw [heq]
      exact List.filter_sublist.trans hchildren
    · rw [heq]
      exact List.Sublist.flatMap_right _ ih

theorem nearest_eq_nil_iff (i : NodeId) (kind : NodeKind) :
    f.nearest i kind = [] ↔ ∀ m, f.Above i m → (f.get m).kind ≠ kind := by
  induction i using hf.induction with
  | h i ih =>
    rcases hf.nearest_cases i kind with ⟨⟨c, hc, hkind⟩, heq⟩ | ⟨hnone, heq⟩
    · refine iff_of_false (fun hnil => ?_) fun h => h c (.single hc) hkind
      rw [heq, List.filter_eq_nil_iff] at hnil
      exact hnil c hc (decide_eq_true hkind)
    · rw [heq, List.flatMap_eq_nil_iff]
      constructor
      · intro h m hm
        obtain ⟨c, hc, hcm⟩ := Relation.TransGen.head'_iff.mp hm
        rcases Relation.reflTransGen_iff_eq_or_transGen.mp hcm with rfl | hcm
        · exact hnone m hc
        · exact (ih c hc).mp (h c hc) m hcm
      · exact fun h c hc => (ih c hc).mpr fun m hm => h m (.head hc hm)

/-- **No node is found below another**: the way to it would lead past the other. -/
theorem not_above_of_mem_nearest (ha : a ∈ f.nearest i kind) (hb : b ∈ f.nearest i kind) :
    ¬f.Above a b := by
  intro hab
  have hia := hf.above_of_mem_nearest ha
  obtain ⟨q, hiq, hqa⟩ := Relation.TransGen.tail'_iff.mp hia
  obtain ⟨p, hap, hpb⟩ := Relation.TransGen.tail'_iff.mp hab
  have hkind := ((hf.mem_nearest_iff hia (hf.holds_iff.mp hqa)).mp ha).1
  have hclear :=
    ((hf.mem_nearest_iff (hia.trans hab) (hf.holds_iff.mp hpb)).mp hb).2
  exact hclear q hiq (.head' hqa hap) a hqa hkind

end Proper

/-- **The nearest nodes of a kind, exactly.** In a proper forest, let the nodes of a kind be
collected that are nearest to a given node.

* They are below it, and a node below it is among them exactly if it is of the kind and the way to
  its parent is clear.
* None of them comes twice, they come in document order, and none is above another.
* There is none only if no node of the kind is below the given one. -/
theorem nearest_exact (f : Forest) (hf : f.Proper) (i : NodeId) (kind : NodeKind) :
    (∀ m, m ∈ f.nearest i kind → f.Above i m) ∧
    (∀ m p, f.Above i m → f.parent? m = some p →
      (m ∈ f.nearest i kind ↔ (f.get m).kind = kind ∧ f.Clear kind i p)) ∧
    (f.nearest i kind).Nodup ∧
    (f.nearest i kind).Sublist (f.documentOrder i) ∧
    (∀ a ∈ f.nearest i kind, ∀ b ∈ f.nearest i kind, ¬f.Above a b) ∧
    (f.nearest i kind = [] ↔ ∀ m, f.Above i m → (f.get m).kind ≠ kind) :=
  ⟨fun _ => hf.above_of_mem_nearest, fun _ _ => hf.mem_nearest_iff,
    (hf.nearest_sublist i kind).nodup (hf.nodup_documentOrder i), hf.nearest_sublist i kind,
    fun _ ha _ hb => hf.not_above_of_mem_nearest ha hb, hf.nearest_eq_nil_iff i kind⟩

/-- Seven nodes, three of them numbers: two in different branches, one deeper than the other, and
the third below the first. -/
def branching : Forest :=
  empty.run <|
    ([.program, .pizza, .add, .number, .literal, .number, .number].map fun kind =>
      .alloc ⟨kind, "", ⟨1, 1, ⟨"main.pf"⟩⟩⟩) ++
    [.attach 0 1, .attach 0 2, .attach 1 3, .attach 2 4, .attach 4 5, .attach 3 6]

/-- The two numbers are found, in this order, and the one below the first of them is not: the way
to it is not clear. -/
theorem nearest_exact_branching :
    branching.Proper ∧ branching.nearest 0 .number = [3, 5] ∧ ¬branching.Above 3 5 ∧
    branching.Clear .number 0 4 ∧ branching.Above 0 6 ∧ (branching.get 6).kind = .number ∧
    ¬branching.Clear .number 0 3 := by
  have hproper : branching.Proper := proper_empty.run (by decide)
  have hfound : branching.nearest 0 .number = [3, 5] := by decide
  have hfive : branching.Above 0 5 := by
    refine .head (?_ : 2 ∈ branching.children 0) (.head (?_ : 4 ∈ branching.children 2)
      (.single (?_ : 5 ∈ branching.children 4))) <;> decide
  have hsix : branching.Above 0 6 := by
    refine .head (?_ : 1 ∈ branching.children 0) (.head (?_ : 3 ∈ branching.children 1)
      (.single (?_ : 6 ∈ branching.children 3))) <;> decide
  obtain ⟨-, hmem, -, -, hapart, -⟩ := nearest_exact branching hproper 0 .number
  rw [hfound] at hapart hmem
  refine ⟨hproper, hfound, hapart 3 (by decide) 5 (by decide), ?_, hsix, by decide, ?_⟩
  · exact ((hmem 5 4 hfive (by decide)).mp (by decide)).2
  · intro hclear
    exact absurd ((hmem 6 3 hsix (by decide)).mpr ⟨by decide, hclear⟩) (by decide)

end Forest

end PizzaLang
