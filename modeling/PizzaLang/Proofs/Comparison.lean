import Mathlib.Data.List.Forall2
import PizzaLang.Proofs.Blindness
import PizzaLang.Proofs.Elaboration
import PizzaLang.Proofs.PathEquality
import PizzaLang.Proofs.Repositioning

/-!
# Two compilations side by side

Two compilations are compared step by step. What is compared is not what comes out of them as it is
but what it looks like: of units, of positions and of errors some part is seen and the rest is not
(`PizzaLang.Outlook`). Steps are in parallel (`PizzaLang.CompileM.Parallel`) if from chains that
look the same they give answers that look the same.

Statements that look the same are worked on in parallel if the outlook fits the compiler
(`PizzaLang.Outlook.Fits`), that is if nothing that the compiler asks for, and no error, depends on
what is not seen. The result is `PizzaLang.Compiler.parallel_analyzeWith`; what is compared in
the end is a matter of the outlook.
-/

namespace PizzaLang

open Fallible

/-! ### Menus and errors -/

section Reposition

variable (f : Position → Position)

/-- Changes all positions of an instruction. -/
def Instruction.reposition (i : Instruction) : Instruction :=
  ⟨f i.declaredAt, i.pizza.reposition f⟩

/-- Changes all positions of a menu. -/
def Menu.reposition (m : Menu) : Menu :=
  ⟨m.unit, m.instructions.map (Instruction.reposition f), m.symbols.reposition f⟩

/-- Changes all positions of an error. -/
def ResourceError.reposition : ResourceError → ResourceError
  | invalid reference referrer position => invalid reference referrer (f position)
  | unreachable reference referrer reason position =>
    unreachable reference referrer reason (f position)
  | recursiveInclude reference unit position => recursiveInclude reference unit (f position)
  | e => e

/-- Changes all positions of an error of statements; an error of tokens stays as it is. -/
def CompileError.reposition : CompileError → CompileError
  | semantic e => semantic (e.reposition f)
  | resource e => resource (e.reposition f)
  | e => e

end Reposition

variable {f : Position → Position}

/-! ### Trees and tables that differ in their positions -/

namespace SyntaxTree

variable {t t' : SyntaxTree} (h : t.reposition f = t'.reposition f)

include h

theorem kind_congr : t.kind = t'.kind := by
  rw [← kind_reposition f t, h, kind_reposition]

theorem value_congr : t.value = t'.value := by
  rw [← value_reposition f t, h, value_reposition]

theorem position_congr : f t.position = f t'.position := by
  rw [← position_reposition f t, h, position_reposition]

theorem children_congr : t.children.map (reposition f) = t'.children.map (reposition f) := by
  rw [← children_reposition f t, h, children_reposition]

theorem child_congr (index : Nat) :
    bimap (SemanticError.reposition f) (reposition f) (t.child index) =
      bimap (SemanticError.reposition f) (reposition f) (t'.child index) := by
  rw [← child_reposition, h, child_reposition]

theorem misfit_congr (detail : Misfit) :
    (t.misfit detail).reposition f = (t'.misfit detail).reposition f := by
  rw [← misfit_reposition, h, misfit_reposition]

end SyntaxTree

section Congruence

variable {t t' : SyntaxTree} {table table' : SymbolTable}
  (htable : table.reposition f = table'.reposition f) (ht : t.reposition f = t'.reposition f)

include ht in
theorem ingredientOf_congr {name name' path path' : SyntaxTree}
    (hname : name.reposition f = name'.reposition f)
    (hpath : path.reposition f = path'.reposition f) (intrinsic : ImageSize) :
    bimap (SemanticError.reposition f) (Ingredient.reposition f)
        (ingredientOf t name path intrinsic) =
      bimap (SemanticError.reposition f) (Ingredient.reposition f)
        (ingredientOf t' name' path' intrinsic) := by
  rw [← ingredientOf_reposition, ht, hname, hpath, ingredientOf_reposition]

include htable ht in
theorem SymbolTable.specialtyOf_congr :
    bimap (SemanticError.reposition f) (Specialty.reposition f) (table.specialtyOf t) =
      bimap (SemanticError.reposition f) (Specialty.reposition f) (table'.specialtyOf t') := by
  rw [← specialtyOf_reposition, ht, htable, specialtyOf_reposition]

include htable ht in
theorem SymbolTable.pizzaOf_congr :
    bimap (SemanticError.reposition f) (Pizza.reposition f) (table.pizzaOf t) =
      bimap (SemanticError.reposition f) (Pizza.reposition f) (table'.pizzaOf t') := by
  rw [← pizzaOf_reposition, ht, htable, pizzaOf_reposition]

include htable in
theorem SymbolTable.insert_congr {s s' : Symbol} (hs : s.reposition f = s'.reposition f) :
    bimap (Clash.reposition f) (SymbolTable.reposition f) (table.insert s) =
      bimap (Clash.reposition f) (SymbolTable.reposition f) (table'.insert s') := by
  rw [← insert_reposition, htable, hs, insert_reposition]

end Congruence

/-! ### Outlooks -/

/-- **What is seen** of units, of positions and of errors. -/
structure Outlook where
  unit : Path → Path
  position : Position → Position
  error : CompileError → CompileError

namespace Outlook

variable (o : Outlook)

/-- What is seen of a menu. -/
def menu (m : Menu) : Menu :=
  ⟨o.unit m.unit, m.instructions.map (Instruction.reposition o.position),
    m.symbols.reposition o.position⟩

theorem menu_eq_iff {m m' : Menu} : o.menu m = o.menu m' ↔ o.unit m.unit = o.unit m'.unit ∧
    m.instructions.map (Instruction.reposition o.position) =
      m'.instructions.map (Instruction.reposition o.position) ∧
    m.symbols.reposition o.position = m'.symbols.reposition o.position := by
  rw [menu, menu, Menu.mk.injEq]

theorem absorb_menu (menu included : Menu) : Compiler.absorb (o.menu menu) (o.menu included) =
    bimap (Clash.reposition o.position) o.menu (Compiler.absorb menu included) := by
  have hmerge := menu.symbols.merge_reposition o.position included.symbols
  rw [Compiler.absorb, Compiler.absorb, Outlook.menu, Outlook.menu, hmerge]
  rcases menu.symbols.merge included.symbols with ⟨symbols, _ | clash⟩
  · refine congrArg Except.ok ?_
    rw [Outlook.menu, List.map_append]
  · rfl

/-- What is seen of an error about a reference. -/
def reference : ResourceError → ResourceError
  | .recursiveInclude reference unit position =>
    .recursiveInclude reference (o.unit unit) (o.position position)
  | e => e.reposition o.position

/-- **An outlook fits a compiler** if errors look the same as soon as the positions and the units in
them do, and if units that look the same are equal as paths and get the same answers. -/
structure Fits (c : Compiler) : Prop where
  semantic : ∀ {e e' : SemanticError}, e.reposition o.position = e'.reposition o.position →
    o.error (.semantic e) = o.error (.semantic e')
  resource : ∀ {e e' : ResourceError}, o.reference e = o.reference e' →
    o.error (.resource e) = o.error (.resource e')
  same : ∀ {p q : Path}, o.unit p = o.unit q → p.Same q
  locate : ∀ (reference : Path) {p q : Path}, o.unit p = o.unit q →
    bimap id o.unit (c.sources.locate reference (some p)) =
      bimap id o.unit (c.sources.locate reference (some q))
  load : ∀ {p q : Path}, o.unit p = o.unit q → c.sources.load p = c.sources.load q
  measure : ∀ (reference : String) {p q : Path}, o.unit p = o.unit q →
    c.images.measure reference p = c.images.measure reference q

end Outlook

/-! ### Steps in parallel -/

namespace CompileM

variable {α β γ δ ε : Type} {o : Outlook} {c : Compiler} {view : α → γ} {x x' : CompileM α}

/-- **Steps in parallel**: while units are open that look the same, both fail with errors that look
the same, or both succeed with results that do. -/
structure Parallel (o : Outlook) (view : α → γ) (act act' : CompileM α) : Prop where
  left : Blind act
  right : Blind act'
  answers : ∀ chain chain', chain.map o.unit = chain'.map o.unit →
    bimap o.error view (act.answer chain) = bimap o.error view (act'.answer chain')

theorem Parallel.bind {view' : β → δ} {k k' : α → CompileM β} (hx : Parallel o view x x')
    (hk : ∀ a a', view a = view a' → Parallel o view' (k a) (k' a')) :
    Parallel o view' (x >>= k) (x' >>= k') := by
  have hleft : ∀ a, Blind (k a) := fun a => (hk a a rfl).left
  have hright : ∀ a, Blind (k' a) := fun a => (hk a a rfl).right
  refine ⟨hx.left.bind hleft, hx.right.bind hright, fun chain chain' hchain => ?_⟩
  rw [hx.left.answer_bind hleft, hx.right.answer_bind hright]
  exact bimap_bind_congr (hx.answers chain chain' hchain) fun a a' ha =>
    (hk a a' ha).answers chain chain' hchain

/-- Steps in parallel end alike. -/
theorem Parallel.outcomes (h : Parallel o view x x') (chain : List Path) :
    (∃ a a' s s', x (.ofChain chain) = .ok a s ∧ x' (.ofChain chain) = .ok a' s' ∧
      view a = view a') ∨
    ∃ e e' s s', x (.ofChain chain) = .error e s ∧ x' (.ofChain chain) = .error e' s' ∧
      o.error e = o.error e' := by
  have hanswers := h.answers chain chain rfl
  simp only [answer, runFrom] at hanswers
  cases hrun : x (.ofChain chain) <;> cases hrun' : x' (.ofChain chain) <;>
    rw [hrun, hrun'] at hanswers
  case ok.ok a s a' s' => exact Or.inl ⟨a, a', s, s', rfl, rfl, Except.ok.inj hanswers⟩
  case error.error e s e' s' => exact Or.inr ⟨e, e', s, s', rfl, rfl, Except.error.inj hanswers⟩
  all_goals cases hanswers

theorem parallel_pure {a a' : α} (h : view a = view a') : Parallel o view (pure a) (pure a') :=
  ⟨blind_pure, blind_pure, fun _ _ _ => congrArg Except.ok h⟩

theorem parallel_throw {e e' : CompileError} (h : o.error e = o.error e') :
    Parallel o view (throw e) (throw e') :=
  ⟨blind_throw, blind_throw, fun _ _ _ => congrArg Except.error h⟩

/-- What goes on record does not come out. -/
theorem parallel_record {event event' : Event} : Parallel o id (record event) (record event') :=
  ⟨blind_record, blind_record, fun _ _ _ => rfl⟩

theorem parallel_chain : Parallel o (List.map o.unit) chain chain :=
  ⟨blind_chain, blind_chain, fun _ _ h => congrArg Except.ok h⟩

theorem parallel_lift {wrap : ε → CompileError} {r r' : Except ε α}
    (h : bimap (o.error ∘ wrap) view r = bimap (o.error ∘ wrap) view r') :
    Parallel o view (lift wrap r) (lift wrap r') := by
  have hanswer : ∀ (r : Except ε α) chain,
      bimap o.error view ((lift wrap r).answer chain) = bimap (o.error ∘ wrap) view r := by
    intro r chain
    cases r <;> rfl
  exact ⟨blind_lift, blind_lift, fun _ _ _ => by rw [hanswer, hanswer, h]⟩

/-- Errors that look the same to a function look the same if nothing else of them is seen. -/
theorem parallel_lift_of {wrap : ε → CompileError} {g : ε → δ}
    (hwrap : ∀ e e', g e = g e' → o.error (wrap e) = o.error (wrap e')) {r r' : Except ε α}
    (h : bimap g view r = bimap g view r') : Parallel o view (lift wrap r) (lift wrap r') := by
  refine parallel_lift ?_
  cases r with
  | ok a =>
    cases r' with
    | ok a' => exact congrArg Except.ok (Except.ok.inj h)
    | error e' => cases h
  | error e =>
    cases r' with
    | ok a' => cases h
    | error e' => exact congrArg Except.error (hwrap e e' (Except.error.inj h))

theorem parallel_semantic (ho : o.Fits c) {r r' : Except SemanticError α}
    (h : bimap (SemanticError.reposition o.position) view r =
      bimap (SemanticError.reposition o.position) view r') :
    Parallel o view (lift .semantic r) (lift .semantic r') :=
  parallel_lift_of (fun _ _ he => ho.semantic he) h

theorem parallel_duplicate (ho : o.Fits c) {r r' : Except Clash α}
    (h : bimap (Clash.reposition o.position) view r =
      bimap (Clash.reposition o.position) view r') :
    Parallel o view (lift (.semantic ∘ .duplicate) r) (lift (.semantic ∘ .duplicate) r') := by
  refine parallel_lift_of (fun clash clash' hclash => ?_) h
  have he : (SemanticError.duplicate clash).reposition o.position =
      (SemanticError.duplicate clash').reposition o.position :=
    congrArg SemanticError.duplicate hclash
  exact ho.semantic he

/-- Lookups whose answers look the same go on in parallel. -/
theorem parallel_lookup (ho : o.Fits c) (view : α → γ) {wrap wrap' : LookupError → ResourceError}
    (hwrap : ∀ e, o.reference (wrap e) = o.reference (wrap' e))
    {found found' : Except LookupError α} (h : bimap id view found = bimap id view found') :
    Parallel o view
      (lift .resource (found.mapError wrap)) (lift .resource (found'.mapError wrap')) := by
  refine parallel_lift_of (fun _ _ he => ho.resource he) ?_
  cases found with
  | ok a =>
    cases found' with
    | ok a' => exact congrArg Except.ok (Except.ok.inj h)
    | error e' => cases h
  | error e =>
    cases found' with
    | ok a' => cases h
    | error e' =>
      obtain rfl : e = e' := Except.error.inj h
      exact congrArg Except.error (hwrap e)

theorem Parallel.within {unit unit' : Path} (hunit : o.unit unit = o.unit unit')
    (h : Parallel o view x x') :
    Parallel o view (CompileM.within unit x) (CompileM.within unit' x') := by
  refine ⟨h.left.within, h.right.within, fun chain chain' hchain => ?_⟩
  rw [answer_within, answer_within]
  refine h.answers _ _ ?_
  rw [List.map_cons, List.map_cons, hunit, hchain]

theorem parallel_foldlM {step step' : β → α → CompileM β} {u : α → δ} {view : β → γ}
    (hstep : ∀ b b' a a', view b = view b' → u a = u a' → Parallel o view (step b a) (step' b' a'))
    {as as' : List α} (has : as.map u = as'.map u) {b b' : β} (hb : view b = view b') :
    Parallel o view (as.foldlM step b) (as'.foldlM step' b') := by
  induction as generalizing as' b b' with
  | nil =>
    obtain rfl : as' = [] := List.map_eq_nil_iff.mp has.symm
    exact parallel_pure hb
  | cons a as ih =>
    obtain ⟨a', as', rfl, ha, has⟩ := List.map_eq_cons_iff.mp has.symm
    rw [List.foldlM_cons, List.foldlM_cons]
    exact (hstep b b' a a' hb ha.symm).bind fun d d' hd => ih has.symm hd

end CompileM

/-! ### Statements -/

namespace Path

variable {p q : Path}

/-- A reference from equal units leads to equal paths. -/
theorem Same.sibling (h : p.Same q) (reference : Path) :
    (p.sibling reference).Same (q.sibling reference) := by
  have hparent := h.parent
  rw [Path.sibling, Path.sibling]
  cases hp : p.parent <;> cases hq : q.parent <;> rw [hp, hq] at hparent <;> cases hparent
  · rfl
  · next hdir => exact hdir.join rfl

/-- A path is equal to one of several others exactly if its components are theirs. -/
theorem exists_same_iff {unit : Path} {others : List Path} :
    (p.Same unit ∨ ∃ other ∈ others, p.Same other) ↔
      p.components ∈ (unit :: others).map components := by
  simp only [Same, List.map_cons, List.mem_cons, List.mem_map, eq_comm]

end Path

/-- Units that look the same have the same components. -/
theorem Outlook.Fits.components {o : Outlook} {c : Compiler} (ho : o.Fits c) {ps qs : List Path}
    (h : ps.map o.unit = qs.map o.unit) : ps.map Path.components = qs.map Path.components := by
  rw [← List.forall₂_eq_eq_eq, List.forall₂_map_left_iff, List.forall₂_map_right_iff] at h ⊢
  exact h.imp fun _ _ hpq => ho.same hpq

namespace Compiler

open CompileM

variable {c : Compiler} {o : Outlook} {m m' : Menu} {t t' : SyntaxTree}

theorem reference_unresolved {reference : String} {referrer : Referrer} {p p' : Position}
    (hp : o.position p = o.position p') (e : LookupError) :
    o.reference (unresolved reference referrer p e) =
      o.reference (unresolved reference referrer p' e) := by
  cases e with
  | notFound => exact congrArg (ResourceError.invalid reference referrer) hp
  | unreadable reason => exact congrArg (ResourceError.unreachable reference referrer reason) hp

section Statements

variable (ho : o.Fits c) (hm : o.menu m = o.menu m')
  (ht : t.reposition o.position = t'.reposition o.position)

include ho

theorem parallel_measure {reference : String} {p q : Path} (h : o.unit p = o.unit q) :
    Parallel o id (c.measure reference p) (c.measure reference q) := by
  rw [measure, measure, ho.measure reference h]
  refine parallel_record.bind fun _ _ _ => ?_
  split
  · exact parallel_record.bind fun _ _ _ => parallel_pure rfl
  · exact parallel_pure rfl
  · exact parallel_pure rfl

include hm ht in
theorem parallel_symbolOf :
    Parallel o (Symbol.reposition o.position) (c.symbolOf m t) (c.symbolOf m' t') := by
  obtain ⟨hunit, -, hsymbols⟩ := o.menu_eq_iff.mp hm
  rw [symbolOf, symbolOf, SyntaxTree.kind_congr ht]
  cases t'.kind
  case ingredient =>
    refine (parallel_semantic ho (SyntaxTree.child_congr ht 0)).bind fun name name' hname => ?_
    refine (parallel_semantic ho (SyntaxTree.child_congr hname 0)).bind fun path path' hpath => ?_
    rw [SyntaxTree.value_congr hpath, SyntaxTree.value_congr hname]
    refine (parallel_measure ho hunit).bind ?_
    rintro measured _ rfl
    refine (parallel_lookup ho id
      (fun e => reference_unresolved (SyntaxTree.position_congr hpath) e) rfl).bind ?_
    rintro intrinsic _ rfl
    refine (parallel_semantic ho (ingredientOf_congr ht hname hpath intrinsic)).bind
      fun i i' hi => ?_
    exact parallel_pure (congrArg Symbol.ingredient hi)
  case specialty =>
    refine (parallel_semantic ho (SymbolTable.specialtyOf_congr hsymbols ht)).bind fun s s' hs => ?_
    exact parallel_pure (congrArg Symbol.specialty hs)
  all_goals exact parallel_throw (ho.semantic (SyntaxTree.misfit_congr ht _))

include hm ht in
theorem parallel_define : Parallel o o.menu (c.define m t) (c.define m' t') := by
  obtain ⟨hunit, hinstructions, hsymbols⟩ := o.menu_eq_iff.mp hm
  refine (parallel_semantic ho (SyntaxTree.child_congr ht 0)).bind fun d d' hd => ?_
  refine (parallel_symbolOf ho hm hd).bind fun s s' hs => parallel_record.bind fun _ _ _ => ?_
  refine (parallel_duplicate ho (SymbolTable.insert_congr hsymbols hs)).bind
    fun symbols symbols' h => ?_
  exact parallel_pure (o.menu_eq_iff.mpr ⟨hunit, hinstructions, h⟩)

include hm ht in
theorem parallel_order : Parallel o o.menu (order m t) (order m' t') := by
  obtain ⟨hunit, hinstructions, hsymbols⟩ := o.menu_eq_iff.mp hm
  refine (parallel_semantic ho (SymbolTable.pizzaOf_congr hsymbols ht)).bind fun p p' hp => ?_
  refine parallel_record.bind fun _ _ _ => parallel_pure (o.menu_eq_iff.mpr ⟨hunit, ?_, hsymbols⟩)
  rw [List.map_append, List.map_append, hinstructions, List.map_singleton, List.map_singleton,
    Instruction.reposition, Instruction.reposition, SyntaxTree.position_congr ht, hp]

/-- **References from units that look the same lead to units that do**, and to the same texts. -/
theorem parallel_resolve {unit unit' : Path} (hunit : o.unit unit = o.unit unit')
    {reference : String} {p p' : Position} (hp : o.position p = o.position p') :
    Parallel o (fun found => (o.unit found.1, found.2))
      (c.resolve unit reference p) (c.resolve unit' reference p') := by
  have hrecursive : ∀ {id id' : Path}, o.unit id = o.unit id' →
      o.error (.resource (.recursiveInclude reference id p)) =
        o.error (.resource (.recursiveInclude reference id' p')) := by
    intro id id' hid
    refine ho.resource ?_
    rw [Outlook.reference, Outlook.reference, hid, hp]
  have hsame := ho.same hunit
  have hself : (unit.sibling ⟨reference⟩).Same unit ↔ (unit'.sibling ⟨reference⟩).Same unit' := by
    rw [Path.Same, hsame.sibling ⟨reference⟩, hsame, Path.Same]
  rw [resolve, resolve]
  by_cases hitself : (unit'.sibling ⟨reference⟩).Same unit'
  · rw [if_pos hitself, if_pos (hself.mpr hitself)]
    exact parallel_throw (hrecursive hunit)
  rw [if_neg hitself, if_neg (mt hself.mp hitself)]
  have hlocate : Parallel o (bimap id o.unit) (c.locate ⟨reference⟩ (some unit))
      (c.locate ⟨reference⟩ (some unit')) :=
    parallel_record.bind fun _ _ _ => parallel_pure (ho.locate _ hunit)
  refine hlocate.bind fun located located' hlocated => ?_
  refine (parallel_lookup ho o.unit (fun e => reference_unresolved hp e) hlocated).bind
    fun found found' hfound => parallel_chain.bind fun busy busy' hbusy => ?_
  have hcomponents : (unit :: busy).map Path.components = (unit' :: busy').map Path.components :=
    ho.components (by rw [List.map_cons, List.map_cons, hunit, hbusy])
  simp only [Path.exists_same_iff]
  rw [hcomponents, ho.same hfound]
  split
  · exact parallel_throw (hrecursive hfound)
  have hload : Parallel o id (c.load found) (c.load found') :=
    parallel_chain.bind fun _ _ _ => parallel_record.bind fun _ _ _ =>
      parallel_pure (ho.load hfound)
  refine hload.bind ?_
  rintro loaded _ rfl
  refine (parallel_lookup ho id (fun e => ?_) rfl).bind ?_
  · exact congrArg (ResourceError.unreachable reference .inclusion e.message) hp
  · rintro text _ rfl
    exact parallel_pure (congrArg (·, text) hfound)

variable {compile compile' : Path → String → CompileM Menu}
  (hcompile : ∀ id id' text, o.unit id = o.unit id' →
    Parallel o o.menu (compile id text) (compile' id' text))

include hcompile

include hm ht in
theorem parallel_includeUnit :
    Parallel o o.menu (c.includeUnit compile m t) (c.includeUnit compile' m' t') := by
  obtain ⟨hunit, -, -⟩ := o.menu_eq_iff.mp hm
  refine (parallel_semantic ho (SyntaxTree.child_congr ht 0)).bind fun path path' hpath => ?_
  dsimp only
  rw [SyntaxTree.value_congr hpath]
  refine (parallel_resolve ho hunit (SyntaxTree.position_congr ht)).bind ?_
  rintro ⟨id, text⟩ ⟨id', text'⟩ hfound
  obtain ⟨hid, rfl⟩ := Prod.mk.inj hfound
  refine parallel_record.bind fun _ _ _ => (hcompile id id' text hid).bind fun n n' hn => ?_
  refine parallel_duplicate ho ?_
  rw [← o.absorb_menu, hm, hn, o.absorb_menu]

include hm ht in
theorem parallel_statement :
    Parallel o o.menu (c.statement compile m t) (c.statement compile' m' t') := by
  rw [statement, statement, SyntaxTree.kind_congr ht]
  cases t'.kind
  case inclusion => exact parallel_includeUnit ho hm ht hcompile
  case definition => exact parallel_define ho hm ht
  case make => exact parallel_order ho hm ht
  all_goals exact parallel_throw (ho.semantic (SyntaxTree.misfit_congr ht _))

/-- **Statements that look the same make menus that look the same.** -/
theorem parallel_analyzeWith {p q : Path} (hunit : o.unit p = o.unit q)
    (hchildren : t.children.map (SyntaxTree.reposition o.position) =
      t'.children.map (SyntaxTree.reposition o.position)) :
    Parallel o o.menu (c.analyzeWith compile p (some t)) (c.analyzeWith compile' q (some t')) := by
  have hblank : o.menu (.blank p) = o.menu (.blank q) := o.menu_eq_iff.mpr ⟨hunit, rfl, rfl⟩
  have hstep : ∀ (m m' : Menu) (u u' : SyntaxTree), o.menu m = o.menu m' →
      u.reposition o.position = u'.reposition o.position →
      Parallel o o.menu (c.statement compile m u) (c.statement compile' m' u') :=
    fun _ _ _ _ hm hu => parallel_statement ho hm hu hcompile
  refine (parallel_foldlM hstep hchildren hblank).bind fun n n' hn => ?_
  exact parallel_record.bind fun _ _ _ => parallel_pure hn

end Statements

end Compiler

end PizzaLang
