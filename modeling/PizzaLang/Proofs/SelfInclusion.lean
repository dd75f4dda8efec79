import PizzaLang.Proofs.Failure
import PizzaLang.Proofs.PathEquality

/-!
# A unit that names itself is refused

An inclusion gives the name of a unit without its extension. If the name with the extension is the
file name of the unit that the inclusion stands in, then the unit names itself. It is refused
without a question to the supply of units, so that neither a supply that does not know the unit nor
one that takes the name for another unit makes a difference.

The test puts the name behind the directory of the unit, as texts, and compares what comes out with
the unit, by components. A path can be written in many ways: from the root or not, with dots, with
slashes that are repeated or at the end. For all of them the directory has all components but the
last (`PizzaLang.Path.components_parent`), and a file name is a single component wherever it is
written (`PizzaLang.Path.IsEntry.components`). So the test finds exactly the file name of the unit
(`PizzaLang.Path.sibling_same_iff`).

The result is `PizzaLang.Compiler.self_inclusion_refused`.
-/

namespace PizzaLang

namespace Path

variable {p : Path} {name : String}

/-! ### Names of entries -/

/-- **A name of an entry**: a text that stands for one entry of a directory. -/
structure IsEntry (name : String) : Prop where
  slash : '/' ∉ name.toList
  idle : isIdle name.toList = false
  up : name.toList ≠ ['.', '.']

theorem isEntry_of_mem_components (h : .entry name ∈ p.components) : IsEntry name := by
  rw [components_eq, componentsOf, List.mem_append] at h
  rcases h with hlead | hbody
  · -- a lead is the root or the current directory
    rw [leading.eq_def] at hlead
    split at hlead <;> simp at hlead
  · obtain ⟨segment, hsegment, hname⟩ := List.mem_map.mp hbody
    obtain ⟨hmem, hidle⟩ := List.mem_filter.mp hsegment
    rw [Component.ofSegment] at hname
    split at hname
    · cases hname
    · next hup =>
      obtain rfl := Component.entry.inj hname
      refine ⟨?_, ?_, ?_⟩ <;> rw [String.toList_ofList]
      · exact not_mem_of_mem_segmentsOf hmem
      · simpa using hidle
      · exact hup

/-- **The name of an entry is one component.** -/
theorem IsEntry.components (h : IsEntry name) : components ⟨name⟩ = [.entry name] := by
  have hsegments := segmentsOf_of_not_mem h.slash
  rw [components_eq, componentsOf, divide_of_segmentsOf hsegments h.idle, hsegments]
  simp [leading, telling, h.idle, Component.ofSegment, h.up]

theorem IsEntry.relative (h : IsEntry name) : isAbsolute ⟨name⟩ = false := by
  rw [Bool.eq_false_iff, Ne, isAbsolute_iff, h.components]
  simp

theorem fileName_eq_some_iff :
    p.fileName = some name ↔ p.components.getLast? = some (.entry name) := by
  rw [fileName]
  split
  · next last hlast => simp [hlast]
  · next hother =>
    refine iff_of_false (by simp) fun hlast => ?_
    exact hother name hlast

theorem isEntry_of_fileName (h : p.fileName = some name) : IsEntry name :=
  isEntry_of_mem_components (List.mem_of_getLast? (fileName_eq_some_iff.mp h))

/-! ### The entry next to a path -/

/-- **The entry next to a path** has its name behind what is above the path. -/
theorem components_sibling (p : Path) (h : IsEntry name) :
    (p.sibling ⟨name⟩).components = p.parent.elim [] Path.components ++ [.entry name] := by
  rw [sibling]
  rcases p.parent with _ | dir
  · exact h.components
  · change (dir.join ⟨name⟩).components = dir.components ++ [.entry name]
    by_cases hnil : dir.components = []
    · rw [join_of_components_eq_nil hnil, h.components, hnil, List.nil_append]
    · rw [components_join h.relative hnil, h.components]
      rfl

/-- **The entry next to a path is the path itself** exactly if it has the file name of the path,
however the path is written. -/
theorem sibling_same_iff (h : IsEntry name) :
    (p.sibling ⟨name⟩).Same p ↔ p.fileName = some name := by
  rw [Same, components_sibling p h, fileName_eq_some_iff]
  constructor
  · intro hsame
    rw [← hsame, List.getLast?_concat]
  · intro hlast
    obtain ⟨above, habove⟩ := List.getLast?_eq_some_iff.mp hlast
    have hroot : above ++ [.entry name] ≠ [.root] := by
      intro hroot
      simpa using congrArg List.getLast? hroot
    have hparent := components_parent p
    rw [habove, if_neg (by simp [hroot]), List.dropLast_concat] at hparent
    obtain ⟨dir, hdir, rfl⟩ := Option.map_eq_some_iff.mp hparent
    rw [hdir, habove, Option.elim_some]

end Path

namespace Compiler

variable {c : Compiler} {compile : Path → String → CompileM Menu} {m : Menu} {s s' s'' : Session}
  {tree t path : SyntaxTree} {before after : List SyntaxTree} {unit : Path} {e : CompileError}

/-! ### Trees that fail at a statement -/

/-- A statement that fails once those before it have succeeded makes the tree fail. -/
theorem analyzeWith_of_statement (hsplit : tree.children = before ++ t :: after)
    (hbefore : before.foldlM (c.statement compile) (.blank unit) s = .ok m s')
    (ht : c.statement compile m t s' = .error e s'') :
    c.analyzeWith compile unit (some tree) s = .error e s'' := by
  have hfold : tree.children.foldlM (c.statement compile) (.blank unit) s = .error e s'' := by
    rw [hsplit, List.foldlM_append, Stateful.bind_of_ok hbefore, List.foldlM_cons]
    exact Stateful.bind_of_error ht
  exact Stateful.bind_of_error hfold

/-- **An inclusion that names its own unit fails at once**, and nothing is put on record. -/
theorem statement_of_self (hkind : t.kind = .inclusion) (hpath : t.child? 0 = some path)
    (hname : m.unit.fileName = some s!"{path.value}.{sourceExtension}") :
    c.statement compile m t s = .error (.resource
      (.recursiveInclude s!"{path.value}.{sourceExtension}" m.unit t.position)) s := by
  have hchild : CompileM.lift .semantic (t.child 0) s = .ok path s :=
    CompileM.lift_eq_ok_iff.mpr ⟨SyntaxTree.child_eq_ok_iff.mpr hpath, rfl⟩
  have hself := (Path.sibling_same_iff (Path.isEntry_of_fileName hname)).mpr hname
  rw [statement, hkind]
  dsimp only
  rw [includeUnit, Stateful.bind_of_ok hchild, resolve, if_pos hself]
  rfl

/-- **A unit that names itself is always refused.** Let the file name of a unit be a name with the
extension of units, however the path of the unit is written, and let a tree be taken for that of
the unit. If all statements before an inclusion of the name are accepted, whatever units and images
there are, then the tree is refused at the inclusion: the error has the file name, the unit as it is
written, and the position of the statement.

Nobody is asked for the unit. The record ends where the statements before the inclusion have been
worked on; the record of the tree that has only these has one event more, which is that the tree is
finished. -/
theorem self_inclusion_refused (c : Compiler) (s : Session) {unit : Path} {name : String}
    (hname : unit.fileName = some (name ++ ".pf")) {tree t path : SyntaxTree}
    {before after : List SyntaxTree} (hsplit : tree.children = before ++ t :: after)
    (hkind : t.kind = .inclusion) (hpath : t.child? 0 = some path) (hvalue : path.value = name)
    {m : Menu} {s₁ : Session}
    (hbefore : c.analyze unit (some (.node tree.label before)) s = .ok m s₁) :
    ∃ s', c.analyze unit (some tree) s =
        .error (.resource (.recursiveInclude (name ++ ".pf") unit t.position)) s' ∧
      s'.chain = s.chain ∧
      s₁.events = s'.events.push (.analyzed unit m.instructions.length m.symbols.size) := by
  have hreference : s!"{path.value}.{sourceExtension}" = name ++ ".pf" := by
    rw [← hvalue]
    exact String.append_assoc
  obtain ⟨s', hfold, rfl⟩ := analyzeWith_eq_ok_iff.mp hbefore
  obtain ⟨walk, hmade, hpassed, -⟩ :=
    statements_sound (fun _ _ _ _ _ h => compileNested_sound h) hfold
  obtain rfl : m.unit = unit := hmade.unit_eq
  rw [← hreference] at hname ⊢
  refine ⟨s', analyzeWith_of_statement hsplit hfold ?_, hpassed.chain, rfl⟩
  exact statement_of_self hkind hpath hname

/-- A compiler that takes the name of one unit for another. -/
def misled : Compiler :=
  ofCatalogue ⟨[("a.pf", .ok ⟨"b.pf"⟩)], []⟩ (Gallery.ofList [("ham.png", .ok ⟨4, 4⟩)]).images

/-- A path with more dots and slashes than it needs. -/
def winding : Path := ⟨".//menus/../menus/./a.pf/."⟩

/-- The definition of an ingredient. -/
def hamDefinition : SyntaxTree :=
  .node ⟨.definition, "DEFINE", ⟨1, 1, winding⟩⟩ [
    .node ⟨.ingredient, "INGREDIENT_VAR", ⟨1, 8, winding⟩⟩ [
      .node ⟨.literal, "ham", ⟨1, 19, winding⟩⟩ [
        .node ⟨.path, "ham.png", ⟨1, 23, winding⟩⟩ []]]]

/-- An inclusion of the unit that it stands in. -/
def selfInclusion : SyntaxTree :=
  .node ⟨.inclusion, "INCLUDE", ⟨2, 1, winding⟩⟩ [.node ⟨.path, "a", ⟨2, 9, winding⟩⟩ []]

/-- A program that defines an ingredient and then includes itself. -/
def selfNaming : SyntaxTree :=
  .node ⟨.program, "PROGRAM", ⟨1, 1, winding⟩⟩ [hamDefinition, selfInclusion]

/-- The ingredient is accepted, and the inclusion is refused without being looked up. -/
theorem self_inclusion_refused_misled :
    winding.fileName = some ("a" ++ ".pf") ∧ ∃ s',
      misled.analyze winding (some selfNaming) (.ofChain []) =
        .error (.resource (.recursiveInclude "a.pf" winding ⟨2, 1, winding⟩)) s' ∧
      .measured "ham.png" winding ∈ s'.events ∧
      .located ⟨"a.pf"⟩ (some winding) ∉ s'.events := by
  have hname : winding.fileName = some ("a" ++ ".pf") := by decide +kernel
  have hsplit : selfNaming.children = [hamDefinition] ++ selfInclusion :: [] := rfl
  have hbefore : Stateful.yields (misled.analyze winding
      (some (.node selfNaming.label [hamDefinition])) (.ofChain []))
      (fun _ s₁ => .measured "ham.png" winding ∈ s₁.events ∧
        .located ⟨"a.pf"⟩ (some winding) ∉ s₁.events) = true := by
    decide +kernel
  obtain ⟨m, s₁, hm, htest⟩ := Stateful.exists_of_yields hbefore
  obtain ⟨hasked, hnever⟩ := of_decide_eq_true htest
  obtain ⟨s', hrefused, -, hevents⟩ :=
    self_inclusion_refused misled (.ofChain []) hname hsplit rfl rfl rfl hm
  rw [hevents, Array.mem_push] at hasked hnever
  exact ⟨hname, s', hrefused, hasked.resolve_right (by simp), fun h => hnever (Or.inl h)⟩

end Compiler

end PizzaLang
