import Mathlib.Logic.Relation
import PizzaLang.Proofs.Failure
import PizzaLang.Proofs.SingleVisit

/-!
# Recursive inclusion is refused, and nothing else is refused for it

The units of a library form a graph: a unit leads to another if its text is a program that has an
inclusion from which the other is located (`PizzaLang.Library.Edge`). Paths stand for one point of
the graph if they are equal as paths.

* An inclusion is refused as recursive only if a cycle can be reached from the unit that is
  compiled. The units that are open lead to each other in turn, so an inclusion that leads back
  to one of them closes a cycle (`PizzaLang.Compiler.Fails.cycleFrom`). The same holds of a unit
  that names itself, which is refused before it is located: in a library it would have been
  located (`PizzaLang.Library.locate_of_sibling`).
* If a cycle can be reached, nothing is compiled. What is compiled takes in all units that it
  leads to, each with fewer units below it than the one it was reached from
  (`PizzaLang.Compiler.Elaborates.enters`), so that there is an end to following inclusions.

The result is `PizzaLang.Compiler.cycle_detection`.
-/

namespace PizzaLang

open Relation

/-- **A cycle can be reached** from a point of a graph. -/
def CycleFrom {α : Type} (edge : α → α → Prop) (a : α) : Prop :=
  ∃ b, ReflTransGen edge a b ∧ TransGen edge b b

theorem CycleFrom.mono {α : Type} {edge edge' : α → α → Prop} {a : α}
    (h : ∀ a b, edge a b → edge' a b) (hcycle : CycleFrom edge a) : CycleFrom edge' a := by
  obtain ⟨b, hab, hbb⟩ := hcycle
  exact ⟨b, ReflTransGen.mono h _ _ hab, TransGen.mono h _ _ hbb⟩

/-- Where following edges comes to an end, no cycle can be reached. -/
theorem not_cycleFrom_of_acc {α : Type} {edge : α → α → Prop} {a : α}
    (h : Acc (fun b a => edge a b) a) : ¬CycleFrom edge a := by
  induction h with
  | intro a _ ih =>
    rintro ⟨b, hab, hcycle⟩
    rcases hab.cases_head with rfl | ⟨c, hac, hcb⟩
    · obtain ⟨c, hac, hca⟩ := TransGen.head'_iff.mp hcycle
      exact ih c hac ⟨a, hca, hcycle⟩
    · exact ih c hac ⟨b, hcb, hcycle⟩

/-! ### The graph of a library -/

namespace Library

variable {l : Library} {u u' w : Path}

/-- **A unit leads to another**: its text is a program with an inclusion, from which the other is
located. -/
def Edge (l : Library) (u w : Path) : Prop :=
  ∃ (text : String) (tree t path : SyntaxTree) (id : Path),
    l.text? u = some text ∧ HasTree u (Text.lines text) tree ∧ t ∈ tree.children ∧
    t.kind = .inclusion ∧ t.child? 0 = some path ∧
    l.locate ⟨s!"{path.value}.{sourceExtension}"⟩ (some u) = .ok id ∧ id.Same w

/-- An edge from a unit that has the extension of units. -/
def ProperEdge (l : Library) (u w : Path) : Prop := checkExtension u = .ok () ∧ l.Edge u w

/-- Equal paths lead to the same units. -/
theorem Edge.congr_left (hu : u.Same u') (h : l.Edge u w) : l.Edge u' w := by
  obtain ⟨text, tree, t, path, id, htext, htree, ht, hkind, hpath, hid, hw⟩ := h
  obtain ⟨tree', htree', hsame⟩ := htree.moveTo u'
  obtain ⟨t', ht', hsame'⟩ := hsame.children.exists_mem ht
  obtain ⟨d, rfl⟩ := htree.exists_derivation
  rcases hsame'.first with ⟨hnone, -⟩ | ⟨path₁, path', hpath₁, hpath', -⟩
  · rw [hpath] at hnone
    cases hnone
  have hvalue : path.value = path'.value := hsame'.firstValue (d.worded u t ht) hpath hpath'
  have hanswer := l.respects.locate (r := ⟨s!"{path.value}.{sourceExtension}"⟩) rfl (.some hu)
  change SameAnswer (l.locate _ _) (l.locate _ _) at hanswer
  rw [hid] at hanswer
  cases hlocate : l.locate ⟨s!"{path.value}.{sourceExtension}"⟩ (some u') with
  | error e =>
    rw [hlocate] at hanswer
    cases hanswer
  | ok id' =>
    rw [hlocate] at hanswer
    cases hanswer with
    | ok hid' =>
      rw [hvalue] at hlocate
      exact ⟨text, tree', t', path', id', text?_congr hu ▸ htext, htree', ht',
        hsame'.kind ▸ hkind, hpath', hlocate, hid'.symm.trans hw⟩

/-- **A unit that names itself would have been located**: the test for it that asks nobody refuses
only what leads back to the unit. -/
theorem locate_of_sibling {reference : Path} (hu : (l.text? u).isSome)
    (h : (u.sibling reference).Same u) :
    ∃ id, l.locate reference (some u) = .ok id ∧ id.Same u := by
  refine ⟨u.sibling reference, ?_, h⟩
  have hsome : (l.text? (u.sibling reference)).isSome := by rwa [text?_congr h]
  have hfirst : (candidates reference (some u)).head? = some (u.sibling reference) := by
    cases habs : reference.isAbsolute <;> cases hparent : u.parent <;>
      simp [candidates, Path.sibling, Path.join, habs, hparent]
  obtain ⟨others, hothers⟩ := List.head?_eq_some_iff.mp hfirst
  rw [locate, hothers, List.find?_cons, hsome]

end Library

/-! ### What is refused closes a cycle -/

/-- An inclusion is refused as recursive. -/
def CompileError.IsRecursion : CompileError → Prop
  | .resource (.recursiveInclude _ _ _) => True
  | _ => False

namespace Compiler

variable {c : Compiler} {chain : List Path} {m m' : Menu} {t : SyntaxTree} {ts : List SyntaxTree}
  {e : CompileError} {walk : List Visit}

theorem unresolved_not_recursion {reference : String} {referrer : Referrer} {position : Position}
    {e : LookupError} :
    ¬(CompileError.resource (unresolved reference referrer position e)).IsRecursion := by
  cases e <;> exact id

theorem forestOf_not_recursion {unit : Path} {text : String} (h : forestOf unit text = .error e) :
    ¬e.IsRecursion := by
  rcases forestOf_fails h with ⟨_, rfl⟩ | ⟨_, rfl⟩ | ⟨_, rfl⟩ <;> exact id

theorem Undeclared.not_recursion {unit : Path} {table : SymbolTable} {d : SyntaxTree}
    (h : c.Undeclared unit table d e) : ¬e.IsRecursion := by
  cases h with
  | unmeasured => exact unresolved_not_recursion
  | _ => exact id

variable {l : Library} {images : Images} {limit : Nat}

/-- **A statement that is refused as recursive closes a cycle**, if it stands in a unit to which
all open units lead. -/
theorem Fails.cycleFrom (h : Fails ⟨l.sources, images, limit⟩ chain m t e) (he : e.IsRecursion)
    {root : Path} {text : String} {tree : SyntaxTree} (htext : l.text? m.unit = some text)
    (htree : IsProgram m.unit text tree) (ht : t ∈ tree.children)
    (hroot : ReflTransGen l.ProperEdge root m.unit)
    (hchain : ∀ p ∈ m.unit :: chain, ReflTransGen l.ProperEdge p m.unit) :
    CycleFrom l.ProperEdge root := by
  induction h generalizing text tree with
  | @fault chain m t e hfaulty =>
    obtain ⟨hcheck, hlines⟩ := isProgram_iff.mp htree
    -- an inclusion from which an open unit is located
    have hback : ∀ path id p, t.kind = .inclusion → t.child 0 = .ok path →
        l.locate ⟨s!"{path.value}.{sourceExtension}"⟩ (some m.unit) = .ok id →
        p ∈ m.unit :: chain → id.Same p → CycleFrom l.ProperEdge root := by
      intro path id p hkind hpath hid hp hsame
      have hedge : l.ProperEdge m.unit p := ⟨hcheck, text, tree, t, path, id, htext, hlines, ht,
        hkind, SyntaxTree.child_eq_ok_iff.mp hpath, hid, hsame⟩
      exact ⟨m.unit, hroot, TransGen.head' hedge (hchain p hp)⟩
    cases hfaulty with
    | itself hkind hpath hself =>
      obtain ⟨id, hid, hsame⟩ := Library.locate_of_sibling (by rw [htext]; rfl) hself
      exact hback _ id m.unit hkind hpath hid List.mem_cons_self hsame
    | busy hkind hpath hid hbusy =>
      obtain ⟨p, hp, hsame⟩ := hbusy
      exact hback _ _ p hkind hpath hid hp hsame
    | unlocated => exact absurd he unresolved_not_recursion
    | unread _ _ hread => exact absurd he (forestOf_not_recursion hread)
    | undeclared _ _ hundeclared => exact absurd he hundeclared.not_recursion
    | _ => exact he.elim
  | @inside chain m n t tree' u before after id walk e hkind hto _ hsplit hmade _ ih =>
    obtain ⟨path, text', hpath, hid, htext', htree'⟩ := hto
    obtain ⟨hcheck, hlines⟩ := isProgram_iff.mp htree
    have hedge : l.ProperEdge m.unit id := ⟨hcheck, text, tree, t, path, id, htext, hlines, ht,
      hkind, SyntaxTree.child_eq_ok_iff.mp hpath, hid, rfl⟩
    have hunit : n.unit = id := hmade.unit_eq
    rw [hunit] at ih
    refine ih he (Library.load_eq_ok_iff.mp htext') htree' (by simp [hsplit]) (hroot.tail hedge) ?_
    rw [List.forall_mem_cons, List.forall_mem_cons]
    exact ⟨.refl, .refl, fun p hp => (hchain p (List.mem_cons_of_mem _ hp)).tail hedge⟩

/-! ### What is compiled leads to no cycle -/

/-- **Every inclusion that is compiled has been followed**, into a unit with fewer units below
it. -/
theorem Elaborates.enters (h : c.Elaborates chain m ts m' walk) (ht : t ∈ ts)
    (hkind : t.kind = .inclusion) :
    ∃ id tree n inner, c.sources.Includes m.unit t id tree ∧
      c.Elaborates (id :: chain) (.blank id) tree.children n inner ∧
      (unitsOf inner).length < (unitsOf walk).length := by
  induction h with
  | done => exact absurd ht List.not_mem_nil
  | define hdefinition _ _ _ _ ih =>
    rcases List.mem_cons.mp ht with rfl | ht
    · simp [hkind] at hdefinition
    · exact ih ht
  | order hmake _ _ ih =>
    rcases List.mem_cons.mp ht with rfl | ht
    · simp [hkind] at hmake
    · exact ih ht
  | @enter chain m n m' t' tree ts id inner walk _ hto _ hinner _ _ _ ih =>
    rw [unitsOf_unit, unitsOf_append, List.length_cons, List.length_append]
    rcases List.mem_cons.mp ht with rfl | ht
    · exact ⟨id, tree, n, inner, hto, hinner, by omega⟩
    · obtain ⟨id', tree', n', inner', hto', hinner', hlt⟩ := ih ht
      exact ⟨id', tree', n', inner', hto', hinner', by omega⟩

/-- **What is compiled leads to an end.** -/
theorem Elaborates.acc {unit : Path} {text : String} {tree : SyntaxTree}
    (h : Elaborates ⟨l.sources, images, limit⟩ chain (.blank unit) tree.children m walk)
    (htext : l.text? unit = some text) (htree : IsProgram unit text tree) :
    Acc (fun w u => l.Edge u w) unit := by
  induction hk : (unitsOf walk).length using Nat.strongRecOn
    generalizing unit text tree chain m walk with
  | ind k ih =>
    refine ⟨unit, fun w hedge => ?_⟩
    obtain ⟨text', tree', t, path, id, htext', hlines, ht, hkind, hpath, hid, hw⟩ := hedge
    obtain rfl := Option.some.inj (htext.symm.trans htext')
    obtain rfl := (isProgram_iff.mp htree).2.unique hlines
    obtain ⟨id', tree', n, inner, ⟨path', text', hpath', hid', htext', htree'⟩, hinner, hlt⟩ :=
      h.enters ht hkind
    obtain rfl := Option.some.inj (hpath.symm.trans (SyntaxTree.child_eq_ok_iff.mp hpath'))
    obtain rfl := Except.ok.inj (hid.symm.trans hid')
    have hacc := ih _ (hk ▸ hlt) hinner (Library.load_eq_ok_iff.mp htext') htree' rfl
    -- the unit that was located and the end of the edge lead to the same units
    exact ⟨w, fun v hv => hacc.inv (hv.congr_left hw.symm)⟩

/-! ### Files -/

variable {path : Path} {s s' : Session}

theorem read_not_recursion (h : c.read path s = .error e s') : ¬e.IsRecursion := by
  rcases read_fails h with ⟨_, rfl⟩ | rfl | ⟨_, _, -, -, rfl⟩ <;> exact id

/-- **Recursive inclusion is what is refused as such.** Let units be kept in a library.

* If no cycle can be reached from the unit at a path, its compilation is never refused for a
  recursive inclusion; a cycle counts only if its units have the extension of units.
* If a cycle can be reached, the unit is not compiled.
* The test for a unit that names itself, for which nothing is located, refuses only inclusions
  that lead back to the unit. -/
theorem cycle_detection (l : Library) (images : Images) :
    (∀ path, (∀ unit, l.locate path none = .ok unit → ¬CycleFrom l.ProperEdge unit) →
      ∀ reference id position s', (ofLibrary l images).compileFile path (.ofChain []) ≠
        .error (.resource (.recursiveInclude reference id position)) s') ∧
    (∀ path unit, l.locate path none = .ok unit → CycleFrom l.Edge unit →
      ∀ m s', (ofLibrary l images).compileFile path (.ofChain []) ≠ .ok m s') ∧
    ∀ unit reference, (l.text? unit).isSome → (unit.sibling reference).Same unit →
      ∃ id, l.locate reference (some unit) = .ok id ∧ id.Same unit := by
  refine ⟨?_, ?_, fun unit reference => Library.locate_of_sibling⟩
  · intro path hcycle reference id position s' h
    have he : (CompileError.resource (.recursiveInclude reference id position)).IsRecursion :=
      trivial
    rcases Stateful.bind_eq_error_iff.mp h with h | ⟨⟨unit, text⟩, s, hread, h⟩
    · exact read_not_recursion h he
    obtain ⟨hunit, htext, hchain⟩ := read_sound hread
    have htext : l.text? unit = some text := Library.load_eq_ok_iff.mp htext
    have hrefused := compileNested_fails h
    rw [hchain] at hrefused
    cases hrefused with
    | unread hread => exact forestOf_not_recursion hread he
    | inside htree hfails =>
      obtain ⟨before, t, after, m, walk, hsplit, hmade, hfails⟩ := hfails
      have hm : m.unit = unit := hmade.unit_eq
      refine hcycle unit hunit (hfails.cycleFrom he (hm ▸ htext) (hm ▸ htree) ?_ (hm ▸ .refl) ?_)
      · simp [hsplit]
      · rw [hm]
        simp [Session.ofChain, ReflTransGen.refl]
  · intro path unit hunit hcycle m s' h
    obtain ⟨⟨unit', text⟩, s, hread, h⟩ := Stateful.bind_eq_ok_iff.mp h
    obtain ⟨hunit', htext, -⟩ := read_sound hread
    obtain rfl := Except.ok.inj (hunit.symm.trans hunit')
    obtain ⟨tree, walk, htree, hmade, -, -⟩ := compileNested_sound h
    exact not_cycleFrom_of_acc (hmade.acc (Library.load_eq_ok_iff.mp htext) htree) hcycle

/-- Two units that include each other, one of them under another spelling. -/
def ring : Library :=
  .ofList [(⟨"d/a.pf"⟩, "include 'b';"), (⟨"d/b.pf"⟩, "include './a';")]

/-- Two units of which one includes the other. -/
def row : Library :=
  .ofList [(⟨"d/a.pf"⟩, "include 'b';"), (⟨"d/b.pf"⟩, "define ingredient Ham('ham.png');")]

/-- In the ring a cycle is found, so nothing is compiled even with the image. In the row there is
none, because it is compiled with the image, and without the image it fails for another reason. -/
theorem cycle_detection_ring :
    (∀ m s', (ofLibrary ring (Gallery.ofList [("ham.png", .ok ⟨4, 4⟩)]).images).compileFile
      ⟨"d/a.pf"⟩ (.ofChain []) ≠ .ok m s') ∧
    (∀ reference id position s', (ofLibrary row (Gallery.ofList []).images).compileFile
      ⟨"d/a.pf"⟩ (.ofChain []) ≠
        .error (.resource (.recursiveInclude reference id position)) s') ∧
    ∃ id, ring.locate ⟨"a.pf"⟩ (some ⟨"d/a.pf"⟩) = .ok id ∧ id.Same ⟨"d/a.pf"⟩ := by
  have hring : ring.locate ⟨"d/a.pf"⟩ none = .ok ⟨"d/a.pf"⟩ := by decide +kernel
  refine ⟨?_, ?_, (cycle_detection ring (Gallery.ofList []).images).2.2 _ _ (by decide +kernel)
    (by decide +kernel)⟩
  · have h : Stateful.fails ((ofLibrary ring (Gallery.ofList []).images).compileFile ⟨"d/a.pf"⟩
        (.ofChain []))
        (· = .resource (.recursiveInclude "./a.pf" ⟨"d/./a.pf"⟩ ⟨1, 1, ⟨"d/b.pf"⟩⟩)) = true := by
      decide +kernel
    obtain ⟨e, s', he, htest⟩ := Stateful.exists_of_fails h
    obtain rfl := of_decide_eq_true htest
    have hcycle : CycleFrom ring.ProperEdge ⟨"d/a.pf"⟩ := by
      by_contra hnone
      refine (cycle_detection ring (Gallery.ofList []).images).1 _ (fun unit hunit => ?_)
        _ _ _ _ he
      obtain rfl := Except.ok.inj (hring.symm.trans hunit)
      exact hnone
    exact (cycle_detection ring _).2.1 _ _ hring (hcycle.mono fun _ _ h => h.2)
  · refine (cycle_detection row _).1 _ fun unit hunit hcycle => ?_
    have h : Stateful.yields ((ofLibrary row (Gallery.ofList [("ham.png", .ok ⟨4, 4⟩)]).images)
        |>.compileFile ⟨"d/a.pf"⟩ (.ofChain [])) (fun _ _ => true) = true := by
      decide +kernel
    obtain ⟨m, s', hm, -⟩ := Stateful.exists_of_yields h
    exact (cycle_detection row _).2.1 _ unit hunit (hcycle.mono fun _ _ h => h.2) m s' hm

end Compiler

end PizzaLang
