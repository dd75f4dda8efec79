import Mathlib.Algebra.Group.Nat.Defs
import PizzaLang.Proofs.Meaning
import PizzaLang.Proofs.Shape

/-!
# When a statement has a meaning

A statement of the right shape has a meaning exactly if certain things hold of its parts: of the
uses of ingredients in it, of the specialties that it starts from, of the word for its size and of
the image that it names. None of this depends on anything in the table of names but the names and
what they are declared as (`PizzaLang.SymbolTable.signature`).

* `PizzaLang.SymbolTable.exists_specialtyOf_iff`: definitions of specialties;
* `PizzaLang.SymbolTable.exists_pizzaOf_iff`: orders;
* `PizzaLang.drawnSize_eq_ok_iff`: the size that an image is drawn at.
-/

namespace PizzaLang

/-- A fold whose steps ask for nothing but their items succeeds exactly if all items pass. -/
theorem Fallible.exists_foldlM_eq_ok_iff {ε β γ : Type} {step : β → γ → Except ε β}
    {P : γ → Prop} {cs : List γ} {b : β}
    (h : ∀ c ∈ cs, ∀ b, (∃ b', step b c = .ok b') ↔ P c) :
    (∃ b', cs.foldlM step b = .ok b') ↔ ∀ c ∈ cs, P c := by
  induction cs generalizing b with
  | nil => exact ⟨fun _ => nofun, fun _ => ⟨b, rfl⟩⟩
  | cons c cs ih =>
    rw [List.forall_mem_cons] at h ⊢
    rw [List.foldlM_cons, ← h.1 b]
    simp only [Fallible.bind_eq_ok_iff]
    constructor
    · rintro ⟨b', d, hd, hrest⟩
      exact ⟨⟨d, hd⟩, (ih h.2).mp ⟨b', hrest⟩⟩
    · rintro ⟨⟨d, hd⟩, hcs⟩
      obtain ⟨b', hrest⟩ := (ih h.2 (b := d)).mpr hcs
      exact ⟨b', d, hd, hrest⟩

/-- A step that asks for one thing and always goes on succeeds exactly if it gets it. -/
theorem Fallible.exists_map_eq_ok_iff {ε α β : Type} {x : Except ε α} {f : α → β} :
    (∃ b, (x >>= fun a => pure (f a)) = .ok b) ↔ ∃ a, x = .ok a := by
  cases x <;> simp [bind, Except.bind, pure, Except.pure]

/-! ### Names and what they are declared as -/

namespace SymbolTable

variable {t other : SymbolTable} {name : String} {kind : SymbolKind} {u : SyntaxTree}

/-- **The signature of a table**: its names, each with what it is declared as, in order. -/
def signature (t : SymbolTable) : List (String × SymbolKind) :=
  t.toList.map fun s => (s.name, s.kind)

@[simp] theorem signature_only {s : Symbol} : (only s).signature = [(s.name, s.kind)] := rfl

@[simp] theorem signature_append : (t.append other).signature = t.signature ++ other.signature := by
  simp [signature]

theorem Keyed.map_signature (ht : t.Keyed) : t.signature.map (·.1) = t.names := by
  have h := congrArg (List.map Prod.fst) ht.map_toList
  rw [List.map_map] at h
  rw [signature, List.map_map]
  exact h

/-- A name of a keyed table is bound to what is listed under it. -/
theorem Keyed.get?_of_mem (ht : t.Keyed) {s : Symbol} (h : (name, s) ∈ t.symbols.entries) :
    t.get? name = some s :=
  Listing.find?_of_mem ht.nodup h

/-- **A name is in the signature** exactly if it is bound to a declaration of that kind. -/
theorem Keyed.mem_signature_iff (ht : t.Keyed) :
    (name, kind) ∈ t.signature ↔ ∃ s, t.get? name = some s ∧ s.kind = kind := by
  rw [signature, List.mem_map]
  constructor
  · rintro ⟨s, hs, heq⟩
    obtain ⟨rfl, rfl⟩ := Prod.mk.inj heq
    obtain ⟨e, he, rfl⟩ := List.mem_map.mp hs
    exact ⟨e.2, ht.get?_of_mem ((ht.keyed e he).symm ▸ he), rfl⟩
  · rintro ⟨s, hs, rfl⟩
    have hmem := mem_entries_of_get? hs
    exact ⟨s, List.mem_map.mpr ⟨_, hmem, rfl⟩, Prod.ext (ht.keyed _ hmem) rfl⟩

/-! ### Uses -/

/-- **A use has a meaning** exactly if it names an ingredient and its quantity is positive. -/
theorem exists_portionOf_iff (ht : t.Keyed) :
    (∃ p, t.portionOf u = .ok p) ↔ (u.value, .ingredient) ∈ t.signature ∧
      ∃ e q, u.child? 0 = some e ∧ e.evaluate = .ok q ∧ 0 < q := by
  simp only [portionOf_eq_ok_iff, SyntaxTree.child_eq_ok_iff, ht.mem_signature_iff]
  constructor
  · rintro ⟨p, hget, e, he, hq, hpos⟩
    exact ⟨⟨_, hget, rfl⟩, e, _, he, hq, hpos⟩
  · rintro ⟨⟨_ | _, hget, hkind⟩, e, q, he, hq, hpos⟩
    · exact ⟨⟨_, q⟩, hget, e, he, hq, hpos⟩
    · cases hkind

theorem exists_useSpecialty_iff (ht : t.Keyed) :
    (∃ p, t.useSpecialty u = .ok p) ↔ (u.value, .specialty) ∈ t.signature := by
  simp only [useSpecialty_eq_ok_iff, ht.mem_signature_iff]
  constructor
  · rintro ⟨p, hget⟩
    exact ⟨_, hget, rfl⟩
  · rintro ⟨_ | _, hget, hkind⟩
    · cases hkind
    · exact ⟨_, hget⟩

end SymbolTable

/-! ### The parts of a statement -/

namespace SyntaxTree

/-- The clauses of the pizza that a statement orders. -/
def clauses (t : SyntaxTree) : List SyntaxTree :=
  if t.kind = .make then
    t.children.flatMap fun size => size.children.flatMap fun pizza => pizza.children
  else []

/-- What stands in the clauses of one kind. -/
def partsOf (kind : NodeKind) (clauses : List SyntaxTree) : List SyntaxTree :=
  (clauses.filter fun clause => clause.kind = kind).flatMap fun clause => clause.children

/-- **The uses of ingredients** in a statement: those of a specialty that it defines, and those
that it adds to a pizza. -/
def uses (t : SyntaxTree) : List SyntaxTree :=
  if t.kind = .definition then
    (t.children.filter fun (d : SyntaxTree) => d.kind = .specialty).flatMap fun d =>
      d.children.flatMap fun name => name.children
  else partsOf .add t.clauses

/-- **The specialties** that the pizza of a statement is made of. -/
def bases (t : SyntaxTree) : List SyntaxTree := partsOf .ofClause t.clauses

/-- **The words for sizes** in a statement. -/
def sizes (t : SyntaxTree) : List SyntaxTree := if t.kind = .make then t.children else []

/-- **An image is drawn at a size**: at that after `resize`, which has to be a number of 32 bits,
or at its own. -/
inductive DrawnAt (d : SyntaxTree) (intrinsic : ImageSize) : ImageSize → Prop
  | own : d.child? 1 = none → DrawnAt d intrinsic intrinsic
  | resized {resize number : SyntaxTree} {side : Nat} :
      d.child? 1 = some resize → resize.child? 0 = some number →
      Text.natural? number.value = some side → side < 2 ^ 32 → DrawnAt d intrinsic ⟨side, side⟩

theorem mem_partsOf {u : SyntaxTree} {kind : NodeKind} {clauses : List SyntaxTree} :
    u ∈ partsOf kind clauses ↔ ∃ clause ∈ clauses, clause.kind = kind ∧ u ∈ clause.children := by
  simp [partsOf, and_assoc]

section Make

variable {value : String} {position : Position} {size pizza : NodeLabel}
  {clauses : List SyntaxTree}

theorem clauses_make :
    SyntaxTree.clauses (.node ⟨.make, value, position⟩ [.node size [.node pizza clauses]]) =
      clauses :=
  (List.append_nil _).trans (List.append_nil _)

theorem uses_make :
    SyntaxTree.uses (.node ⟨.make, value, position⟩ [.node size [.node pizza clauses]]) =
      partsOf .add clauses :=
  congrArg (partsOf .add) clauses_make

theorem bases_make :
    SyntaxTree.bases (.node ⟨.make, value, position⟩ [.node size [.node pizza clauses]]) =
      partsOf .ofClause clauses :=
  congrArg (partsOf .ofClause) clauses_make

end Make

theorem uses_ingredient {value : String} {position : Position} {d : SyntaxTree}
    (hkind : d.kind = .ingredient) :
    SyntaxTree.uses (.node ⟨.definition, value, position⟩ [d]) = [] := by
  change ([d].filter fun (d : SyntaxTree) => d.kind = .specialty).flatMap _ = []
  rw [List.filter_cons_of_neg (by simp [hkind])]
  rfl

theorem uses_specialty {value value' : String} {position position' : Position} {name : NodeLabel}
    {uses : List SyntaxTree} :
    SyntaxTree.uses (.node ⟨.definition, value, position⟩
      [.node ⟨.specialty, value', position'⟩ [.node name uses]]) = uses :=
  (List.append_nil _).trans (List.append_nil _)

end SyntaxTree

open SyntaxTree

/-! ### Definitions -/

/-- **A specialty has a meaning** exactly if all uses in it have one. -/
theorem SymbolTable.exists_specialtyOf_iff {t : SymbolTable} {l name : NodeLabel}
    {uses : List SyntaxTree} :
    (∃ p, t.specialtyOf (.node l [.node name uses]) = .ok p) ↔
      ∀ u ∈ uses, ∃ p, t.portionOf u = .ok p := by
  have hsteps : (∃ portions, uses.foldlM t.setPortion .empty = .ok portions) ↔
      ∀ u ∈ uses, ∃ p, t.portionOf u = .ok p :=
    Fallible.exists_foldlM_eq_ok_iff fun _ _ _ => Fallible.exists_map_eq_ok_iff
  rw [← hsteps]
  simp only [specialtyOf_eq_ok_iff]
  constructor
  · rintro ⟨p, node, portions, hnode, hportions, -⟩
    obtain rfl : .node name uses = node := Except.ok.inj hnode
    exact ⟨portions, hportions⟩
  · rintro ⟨portions, hportions⟩
    exact ⟨_, .node name uses, portions, rfl, hportions, rfl⟩

theorem drawnSize_eq_ok_iff {d : SyntaxTree} {intrinsic size : ImageSize} :
    drawnSize d intrinsic = .ok size ↔ d.DrawnAt intrinsic size := by
  rw [drawnSize]
  cases hresize : d.child? 1 with
  | none =>
    constructor
    · rintro heq
      obtain rfl := Except.ok.inj heq
      exact .own hresize
    · rintro (_ | ⟨hresize', -, -, -⟩)
      · rfl
      · rw [hresize] at hresize'
        cases hresize'
  | some resize =>
    simp only [Fallible.bind_eq_ok_iff, child_eq_ok_iff]
    constructor
    · rintro ⟨number, hnumber, h⟩
      split at h
      · next side hside =>
        obtain rfl := Fallible.pure_eq_ok_iff.mp h
        obtain ⟨hside, hlt⟩ := Option.filter_eq_some_iff.mp hside
        exact .resized hresize hnumber hside (of_decide_eq_true hlt)
      · cases h
    · rintro (hnone | ⟨hresize', hnumber, hside, hlt⟩)
      · rw [hresize] at hnone
        cases hnone
      · obtain rfl := Option.some.inj (hresize.symm.trans hresize')
        refine ⟨_, hnumber, ?_⟩
        rw [Option.filter_eq_some_iff.mpr ⟨hside, decide_eq_true hlt⟩]
        rfl

/-! ### Orders -/

namespace SymbolTable

variable {t : SymbolTable}

/-- **A clause has a meaning** exactly if all that it names has one. -/
theorem exists_addClause_iff {clause : SyntaxTree} {pizza : Pizza} (h : clause.IsClause) :
    (∃ pizza', t.addClause pizza clause = .ok pizza') ↔
      (clause.kind = .add → ∀ u ∈ clause.children, ∃ p, t.portionOf u = .ok p) ∧
      (clause.kind = .ofClause → ∀ u ∈ clause.children, ∃ p, t.useSpecialty u = .ok p) := by
  cases h with
  | @add value position uses =>
    have hsteps : (∃ portions, uses.foldlM t.keepPortion pizza.portions = .ok portions) ↔
        ∀ u ∈ uses, ∃ p, t.portionOf u = .ok p :=
      Fallible.exists_foldlM_eq_ok_iff fun _ _ _ => Fallible.exists_map_eq_ok_iff
    refine (Fallible.exists_map_eq_ok_iff.trans hsteps).trans ?_
    exact ⟨fun huses => ⟨fun _ => huses, nofun⟩, fun huses => huses.1 rfl⟩
  | @names value position names =>
    have hsteps : (∃ ps, names.foldlM t.keepSpecialty pizza.specialties = .ok ps) ↔
        ∀ u ∈ names, ∃ p, t.useSpecialty u = .ok p :=
      Fallible.exists_foldlM_eq_ok_iff fun _ _ _ => Fallible.exists_map_eq_ok_iff
    refine (Fallible.exists_map_eq_ok_iff.trans hsteps).trans ?_
    exact ⟨fun hnames => ⟨nofun, fun _ => hnames⟩, fun hnames => hnames.2 rfl⟩
  | save => exact ⟨fun _ => ⟨nofun, nofun⟩, fun _ => ⟨_, rfl⟩⟩

/-- **An order has a meaning** exactly if its size is known and all its clauses have one. -/
theorem exists_pizzaOf_iff {l size pizza : NodeLabel} {clauses : List SyntaxTree}
    (h : ∀ clause ∈ clauses, clause.IsClause) :
    (∃ p, t.pizzaOf (.node l [.node size [.node pizza clauses]]) = .ok p) ↔
      size.value ∈ ["big", "medium", "personal"] ∧ ∀ clause ∈ clauses,
        (clause.kind = .add → ∀ u ∈ clause.children, ∃ p, t.portionOf u = .ok p) ∧
        (clause.kind = .ofClause → ∀ u ∈ clause.children, ∃ p, t.useSpecialty u = .ok p) := by
  have hclauses : ∀ word, (∃ p, clauses.foldlM t.addClause (.plain word) = .ok p) ↔ _ :=
    fun word => Fallible.exists_foldlM_eq_ok_iff fun clause hmem _ =>
      exists_addClause_iff (h clause hmem)
  have hsize : size.value ∈ ["big", "medium", "personal"] ↔
      ∃ word, PizzaSize.ofWord? size.value = some word := by
    rw [← Option.isSome_iff_exists, ← not_iff_not, Option.not_isSome_iff_eq_none,
      PizzaSize.ofWord?_eq_none_iff]
  rw [hsize]
  simp only [pizzaOf_eq_ok_iff]
  constructor
  · rintro ⟨p, node, word, body, hnode, hword, hbody, hp⟩
    obtain rfl : .node size [.node pizza clauses] = node := Except.ok.inj hnode
    obtain rfl : .node pizza clauses = body := Except.ok.inj hbody
    exact ⟨⟨word, hword⟩, (hclauses word).mp ⟨p, hp⟩⟩
  · rintro ⟨⟨word, hword⟩, hall⟩
    obtain ⟨p, hp⟩ := (hclauses word).mpr hall
    exact ⟨p, .node size [.node pizza clauses], word, .node pizza clauses, rfl, hword, rfl, hp⟩

end SymbolTable

end PizzaLang
