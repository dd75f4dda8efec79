import Mathlib.Algebra.Group.Int.Defs
import PizzaLang.Meaning.Statement
import PizzaLang.Proofs.Outcome
import PizzaLang.Proofs.Symbols

/-!
# What the statements of a unit read off its table

The meaning of a definition or of an order depends on the table of the names declared before
it, and only through the bindings of the names that it looks up
(`PizzaLang.SyntaxTree.lookups`). Two things follow.

* Everything found in the table is carried along unchanged: the portions of a specialty or of
  a pizza hold the very ingredients that the table holds
  (`PizzaLang.SymbolTable.Covers`), and a pizza holds the very specialties
  (`PizzaLang.SymbolTable.Serves`).
* A statement that has a meaning keeps it in every larger table
  (`PizzaLang.SymbolTable.specialtyOf_mono`, `PizzaLang.SymbolTable.pizzaOf_mono`).
-/

namespace PizzaLang

/-! ### Quantities -/

namespace SyntaxTree

theorem child_eq_ok_iff {t u : SyntaxTree} {index : Nat} :
    t.child index = .ok u ↔ t.child? index = some u := by
  rw [child]
  cases t.child? index <;> simp

theorem lt_of_inRange {position : Position} {n m : Int} (h : inRange position n = .ok m) :
    m < quantityBound := by
  rw [inRange] at h
  split at h
  · next hn =>
    obtain rfl := Except.ok.inj h
    simp only [isQuantity, Bool.and_eq_true, decide_eq_true_eq] at hn
    exact hn.2
  · cases h

theorem lt_of_readQuantity {label : NodeLabel} {n : Int} (h : readQuantity label = .ok n) :
    n < quantityBound := by
  rw [readQuantity] at h
  split at h
  · exact lt_of_inRange h
  · cases h

theorem lt_of_operate {label : NodeLabel} {x y n : Int} (h : operate label x y = .ok n) :
    n < quantityBound := by
  rw [operate] at h
  split at h
  · exact lt_of_inRange h
  · exact lt_of_inRange h
  · exact lt_of_inRange h
  · split at h
    · cases h
    · exact lt_of_inRange h

/-- **The value of an expression fits in 64 bits**, whatever the expression is: a number and
the result of an operation are looked at before they are used. -/
theorem lt_of_evaluate {t : SyntaxTree} {n : Int} (h : t.evaluate = .ok n) :
    n < quantityBound := by
  rw [evaluate.eq_def] at h
  split at h
  next label children =>
  split at h
  · exact lt_of_readQuantity h
  split at h
  · split at h
    · obtain ⟨x, -, h⟩ := Fallible.bind_eq_ok_iff.mp h
      obtain ⟨y, -, h⟩ := Fallible.bind_eq_ok_iff.mp h
      exact lt_of_operate h
    · obtain ⟨x, -, h⟩ := Fallible.bind_eq_ok_iff.mp h
      cases h
    · cases h
  · cases h

/-! ### Names that are looked up -/

/-- The names that the definition of a specialty looks up. -/
def specialtyLookups (d : SyntaxTree) : List String :=
  (d.child? 0).elim [] fun name => name.children.map value

/-- The names that a clause of a pizza looks up. -/
def clauseLookups (clause : SyntaxTree) : List String :=
  if clause.kind = .add ∨ clause.kind = .ofClause then clause.children.map value else []

/-- The names that an order looks up. -/
def pizzaLookups (make : SyntaxTree) : List String :=
  ((make.child? 0).bind fun size => size.child? 0).elim [] fun body =>
    body.children.flatMap clauseLookups

/-- **The names that a statement looks up.** -/
def lookups (t : SyntaxTree) : List String :=
  match t.kind with
  | .definition =>
    (t.child? 0).elim [] fun d => if d.kind = .specialty then d.specialtyLookups else []
  | .make => t.pizzaLookups
  | _ => []

theorem lookups_specialty {t d : SyntaxTree} (hkind : t.kind = .definition)
    (hd : t.child? 0 = some d) (hd' : d.kind = .specialty) : t.lookups = d.specialtyLookups := by
  rw [lookups, hkind, hd, Option.elim_some, if_pos hd']

theorem lookups_make {t : SyntaxTree} (hkind : t.kind = .make) : t.lookups = t.pizzaLookups := by
  rw [lookups, hkind]

end SyntaxTree

/-- A word stands for a size unless it is none of the words for one. -/
theorem PizzaSize.ofWord?_eq_none_iff {word : String} :
    PizzaSize.ofWord? word = none ↔ word ∉ ["big", "medium", "personal"] := by
  simp [ofWord?, render, @eq_comm _ word]

namespace SymbolTable

variable {t t' : SymbolTable} {use definition make clause : SyntaxTree}

/-! ### Uses of names -/

theorem lookup_eq_ok_iff {kind : SymbolKind} {s : Symbol} :
    t.lookup use kind = .ok s ↔ t.get? use.value = some s ∧ s.kind = kind := by
  rw [lookup]
  cases t.get? use.value with
  | none => simp
  | some found =>
    dsimp only
    constructor
    · intro h
      split at h
      · next hkind =>
        obtain rfl := Except.ok.inj h
        exact ⟨rfl, hkind⟩
      · cases h
    · rintro ⟨heq, hkind⟩
      obtain rfl := Option.some.inj heq
      exact if_pos hkind

section UseAs

variable {α : Type} {kind : SymbolKind} {pick : Symbol → Option α}

theorem useAs_eq_ok_iff {a : α} : t.useAs use kind pick = .ok a ↔
    ∃ s, t.get? use.value = some s ∧ s.kind = kind ∧ pick s = some a := by
  simp only [useAs, Fallible.bind_eq_ok_iff, lookup_eq_ok_iff, and_assoc]
  refine exists_congr fun s => and_congr_right fun _ => and_congr_right fun _ => ?_
  cases pick s with
  | none => simp
  | some b => exact Fallible.pure_eq_ok_iff.trans (by rw [Option.some.injEq])

/-- **What is looked up as of a kind is of that kind**, so only the lookup can fail. -/
theorem useAs_eq_error_iff (hpick : ∀ s, s.kind = kind → pick s ≠ none) {e : SemanticError} :
    t.useAs use kind pick = .error e ↔ t.lookup use kind = .error e := by
  rw [useAs, Fallible.bind_eq_error_iff]
  refine ⟨?_, Or.inl⟩
  rintro (h | ⟨s, hs, h⟩)
  · exact h
  · split at h
    · cases h
    · next hnone => exact absurd hnone (hpick s (lookup_eq_ok_iff.mp hs).2)

end UseAs

theorem useIngredient_eq_ok_iff {i : Ingredient} :
    t.useIngredient use = .ok i ↔ t.get? use.value = some (.ingredient i) := by
  rw [useIngredient, useAs_eq_ok_iff]
  constructor
  · rintro ⟨_ | _, hget, hkind, hpick⟩
    · obtain rfl := Option.some.inj hpick
      exact hget
    · cases hkind
  · exact fun hget => ⟨_, hget, rfl, rfl⟩

theorem useSpecialty_eq_ok_iff {p : Specialty} :
    t.useSpecialty use = .ok p ↔ t.get? use.value = some (.specialty p) := by
  rw [useSpecialty, useAs_eq_ok_iff]
  constructor
  · rintro ⟨_ | _, hget, hkind, hpick⟩
    · cases hkind
    · obtain rfl := Option.some.inj hpick
      exact hget
  · exact fun hget => ⟨_, hget, rfl, rfl⟩

theorem useIngredient_eq_error_iff {e : SemanticError} :
    t.useIngredient use = .error e ↔ t.lookup use .ingredient = .error e := by
  refine useAs_eq_error_iff fun s hkind => ?_
  cases s with
  | ingredient i => simp [Symbol.ingredient?]
  | specialty p => cases hkind

theorem useSpecialty_eq_error_iff {e : SemanticError} :
    t.useSpecialty use = .error e ↔ t.lookup use .specialty = .error e := by
  refine useAs_eq_error_iff fun s hkind => ?_
  cases s with
  | ingredient i => cases hkind
  | specialty p => simp [Symbol.specialty?]

/-- **A use of an ingredient** has a meaning exactly if its name is bound to an ingredient and
its quantity has a positive value. -/
theorem portionOf_eq_ok_iff {p : Portion} :
    t.portionOf use = .ok p ↔ t.get? use.value = some (.ingredient p.ingredient) ∧
      ∃ e, use.child 0 = .ok e ∧ e.evaluate = .ok p.quantity ∧ 0 < p.quantity := by
  simp only [portionOf, Fallible.bind_eq_ok_iff, useIngredient_eq_ok_iff]
  constructor
  · rintro ⟨i, hi, e, he, q, hq, h⟩
    split at h
    · cases h
    · next hpos =>
      obtain rfl := Except.ok.inj h
      exact ⟨hi, e, he, hq, Int.not_le.mp hpos⟩
  · rintro ⟨hi, e, he, hq, hpos⟩
    refine ⟨_, hi, e, he, _, hq, ?_⟩
    rw [if_neg (Int.not_le.mpr hpos)]
    rfl

/-- **Some names are bound in a second table as in the first.** -/
def WithinOn (names : List String) (t t' : SymbolTable) : Prop :=
  ∀ name ∈ names, ∀ s, t.get? name = some s → t'.get? name = some s

theorem Within.on (h : t.Within t') (names : List String) : WithinOn names t t' :=
  fun name _ => h name

theorem portionOf_of_withinOn {names : List String} (hw : WithinOn names t t')
    (huse : use.value ∈ names) {p : Portion} (h : t.portionOf use = .ok p) :
    t'.portionOf use = .ok p := by
  obtain ⟨hi, hq⟩ := portionOf_eq_ok_iff.mp h
  exact portionOf_eq_ok_iff.mpr ⟨hw _ huse _ hi, hq⟩

/-! ### Portions that a table covers -/

/-- **The portions are made from the table**: no name twice, each portion under the name of
its ingredient, which is the one bound to that name, and in a positive quantity of at most
63 bits. -/
structure Covers (t : SymbolTable) (portions : Listing Portion) : Prop where
  nodup : portions.names.Nodup
  named : ∀ e ∈ portions.entries, e.2.ingredient.name = e.1
  positive : ∀ e ∈ portions.entries, 0 < e.2.quantity
  bounded : ∀ e ∈ portions.entries, e.2.quantity ≤ 2 ^ 63 - 1
  bound : ∀ e ∈ portions.entries, t.get? e.1 = some (.ingredient e.2.ingredient)

theorem covers_empty : t.Covers .empty :=
  ⟨List.nodup_nil, by simp, by simp, by simp, by simp⟩

theorem Covers.mono (hw : t.Within t') {portions : Listing Portion} (h : t.Covers portions) :
    t'.Covers portions :=
  ⟨h.nodup, h.named, h.positive, h.bounded, fun e he => hw _ _ (h.bound e he)⟩

/-- Portions that a table covers stay so when new ones come from it, as long as their names
stay different. -/
theorem Covers.extend {portions portions' : Listing Portion} {p : Portion} (ht : t.Keyed)
    (h : t.Covers portions) (hp : t.portionOf use = .ok p) (hnodup : portions'.names.Nodup)
    (hmem : ∀ e ∈ portions'.entries, e = (p.ingredient.name, p) ∨ e ∈ portions.entries) :
    t.Covers portions' := by
  obtain ⟨hget, e, -, heval, hpos⟩ := portionOf_eq_ok_iff.mp hp
  have hname : p.ingredient.name = use.value := ht.name_of_get? hget
  have hlt : p.quantity ≤ 2 ^ 63 - 1 := by
    have := SyntaxTree.lt_of_evaluate heval
    rw [quantityBound] at this
    omega
  refine ⟨hnodup, ?_, ?_, ?_, ?_⟩ <;> intro d hd <;> rcases hmem d hd with rfl | hd
  · rfl
  · exact h.named d hd
  · exact hpos
  · exact h.positive d hd
  · exact hlt
  · exact h.bounded d hd
  · exact hname ▸ hget
  · exact h.bound d hd

theorem Covers.setPortion (ht : t.Keyed) {portions portions' : Listing Portion}
    (h : t.Covers portions) (hset : t.setPortion portions use = .ok portions') :
    t.Covers portions' := by
  obtain ⟨p, hp, hset⟩ := Fallible.bind_eq_ok_iff.mp hset
  obtain rfl := Fallible.pure_eq_ok_iff.mp hset
  exact h.extend ht hp (Listing.nodup_names_set h.nodup) fun e => Listing.mem_entries_set

theorem Covers.keepPortion (ht : t.Keyed) {portions portions' : Listing Portion}
    (h : t.Covers portions) (hkeep : t.keepPortion portions use = .ok portions') :
    t.Covers portions' := by
  obtain ⟨p, hp, hkeep⟩ := Fallible.bind_eq_ok_iff.mp hkeep
  obtain rfl := Fallible.pure_eq_ok_iff.mp hkeep
  exact h.extend ht hp (Listing.nodup_names_keep h.nodup) fun e => Listing.mem_entries_keep

/-! ### Specialties -/

theorem specialtyOf_eq_ok_iff {p : Specialty} :
    t.specialtyOf definition = .ok p ↔ ∃ name portions, definition.child 0 = .ok name ∧
      name.children.foldlM t.setPortion .empty = .ok portions ∧
      p = ⟨name.value, portions, name.position⟩ := by
  simp only [specialtyOf, Fallible.bind_eq_ok_iff, Fallible.pure_eq_ok_iff]
  constructor
  · rintro ⟨name, hname, portions, hportions, rfl⟩
    exact ⟨name, portions, hname, hportions, rfl⟩
  · rintro ⟨name, portions, hname, hportions, rfl⟩
    exact ⟨name, hname, portions, hportions, rfl⟩

/-- **A specialty is made from the table** in which it is defined. -/
theorem covers_of_specialtyOf (ht : t.Keyed) {p : Specialty}
    (h : t.specialtyOf definition = .ok p) : t.Covers p.portions := by
  obtain ⟨name, portions, -, hportions, rfl⟩ := specialtyOf_eq_ok_iff.mp h
  exact Fallible.foldlM_invariant (P := t.Covers) (fun b c b' hb hc => hb.setPortion ht hc)
    covers_empty hportions

theorem specialtyOf_of_lookups (hw : WithinOn definition.specialtyLookups t t') {p : Specialty}
    (h : t.specialtyOf definition = .ok p) : t'.specialtyOf definition = .ok p := by
  obtain ⟨name, portions, hname, hportions, rfl⟩ := specialtyOf_eq_ok_iff.mp h
  rw [SyntaxTree.specialtyLookups, SyntaxTree.child_eq_ok_iff.mp hname] at hw
  refine specialtyOf_eq_ok_iff.mpr ⟨name, portions, hname, ?_, rfl⟩
  refine Fallible.foldlM_mono (fun use huse b b' hset => ?_) hportions
  obtain ⟨p, hp, hset⟩ := Fallible.bind_eq_ok_iff.mp hset
  exact Fallible.bind_eq_ok_iff.mpr
    ⟨p, portionOf_of_withinOn hw (List.mem_map_of_mem huse) hp, hset⟩

theorem specialtyOf_mono (hw : t.Within t') {p : Specialty}
    (h : t.specialtyOf definition = .ok p) : t'.specialtyOf definition = .ok p :=
  specialtyOf_of_lookups (hw.on _) h

/-! ### Pizzas -/

/-- **A pizza is made from the table**: its own portions are, and its specialties are those
bound to their names. -/
structure Serves (t : SymbolTable) (pizza : Pizza) : Prop where
  portions : t.Covers pizza.portions
  named : ∀ e ∈ pizza.specialties.entries, e.2.name = e.1
  bound : ∀ e ∈ pizza.specialties.entries, t.get? e.1 = some (.specialty e.2)

theorem serves_plain {size : PizzaSize} : t.Serves (.plain size) :=
  ⟨covers_empty, by simp [Pizza.plain], by simp [Pizza.plain]⟩

theorem Serves.mono (hw : t.Within t') {pizza : Pizza} (h : t.Serves pizza) : t'.Serves pizza :=
  ⟨h.portions.mono hw, h.named, fun e he => hw _ _ (h.bound e he)⟩

theorem Serves.keepSpecialty (ht : t.Keyed) {pizza : Pizza} {specialties : Listing Specialty}
    (h : t.Serves pizza) (hkeep : t.keepSpecialty pizza.specialties use = .ok specialties) :
    t.Serves { pizza with specialties } := by
  obtain ⟨p, hp, hkeep⟩ := Fallible.bind_eq_ok_iff.mp hkeep
  obtain rfl := Fallible.pure_eq_ok_iff.mp hkeep
  have hget := useSpecialty_eq_ok_iff.mp hp
  have hname : p.name = use.value := ht.name_of_get? hget
  refine ⟨h.portions, ?_, ?_⟩ <;> intro d hd <;> rcases Listing.mem_entries_keep hd with rfl | hd
  · rfl
  · exact h.named d hd
  · exact hname ▸ hget
  · exact h.bound d hd

theorem Serves.addClause (ht : t.Keyed) {pizza pizza' : Pizza} (h : t.Serves pizza)
    (hadd : t.addClause pizza clause = .ok pizza') : t.Serves pizza' := by
  rw [SymbolTable.addClause] at hadd
  split at hadd
  · obtain ⟨portions, hfold, hadd⟩ := Fallible.bind_eq_ok_iff.mp hadd
    obtain rfl := Fallible.pure_eq_ok_iff.mp hadd
    refine ⟨?_, h.named, h.bound⟩
    exact Fallible.foldlM_invariant (P := t.Covers) (fun b c b' hb hc => hb.keepPortion ht hc)
      h.portions hfold
  · obtain ⟨specialties, hfold, hadd⟩ := Fallible.bind_eq_ok_iff.mp hadd
    obtain rfl := Fallible.pure_eq_ok_iff.mp hadd
    exact Fallible.foldlM_invariant (P := fun l => t.Serves { pizza with specialties := l })
      (fun b c b' hb hc => hb.keepSpecialty ht hc) h hfold
  · obtain ⟨name, -, hadd⟩ := Fallible.bind_eq_ok_iff.mp hadd
    obtain rfl := Fallible.pure_eq_ok_iff.mp hadd
    exact ⟨h.portions, h.named, h.bound⟩
  · cases hadd

theorem pizzaOf_eq_ok_iff {pizza : Pizza} :
    t.pizzaOf make = .ok pizza ↔ ∃ size word body, make.child 0 = .ok size ∧
      PizzaSize.ofWord? size.value = some word ∧ size.child 0 = .ok body ∧
      body.children.foldlM t.addClause (.plain word) = .ok pizza := by
  simp only [pizzaOf, Fallible.bind_eq_ok_iff]
  constructor
  · rintro ⟨size, hsize, h⟩
    split at h
    · cases h
    · next word hword =>
      obtain ⟨body, hbody, h⟩ := Fallible.bind_eq_ok_iff.mp h
      exact ⟨size, word, body, hsize, hword, hbody, h⟩
  · rintro ⟨size, word, body, hsize, hword, hbody, h⟩
    refine ⟨size, hsize, ?_⟩
    rw [hword]
    exact Fallible.bind_eq_ok_iff.mpr ⟨body, hbody, h⟩

/-- **A pizza is made from the table** in which it is ordered. -/
theorem serves_of_pizzaOf (ht : t.Keyed) {pizza : Pizza} (h : t.pizzaOf make = .ok pizza) :
    t.Serves pizza := by
  obtain ⟨size, word, body, -, -, -, h⟩ := pizzaOf_eq_ok_iff.mp h
  exact Fallible.foldlM_invariant (P := t.Serves) (fun b c b' hb hc => hb.addClause ht hc)
    serves_plain h

theorem addClause_of_lookups (hw : WithinOn clause.clauseLookups t t') {pizza pizza' : Pizza}
    (h : t.addClause pizza clause = .ok pizza') : t'.addClause pizza clause = .ok pizza' := by
  rw [SyntaxTree.clauseLookups] at hw
  rw [addClause] at h ⊢
  split at h
  · next hkind =>
    rw [if_pos (Or.inl hkind)] at hw
    obtain ⟨portions, hfold, h⟩ := Fallible.bind_eq_ok_iff.mp h
    refine Fallible.bind_eq_ok_iff.mpr ⟨portions, ?_, h⟩
    refine Fallible.foldlM_mono (fun use huse b b' hkeep => ?_) hfold
    obtain ⟨p, hp, hkeep⟩ := Fallible.bind_eq_ok_iff.mp hkeep
    exact Fallible.bind_eq_ok_iff.mpr
      ⟨p, portionOf_of_withinOn hw (List.mem_map_of_mem huse) hp, hkeep⟩
  · next hkind =>
    rw [if_pos (Or.inr hkind)] at hw
    obtain ⟨specialties, hfold, h⟩ := Fallible.bind_eq_ok_iff.mp h
    refine Fallible.bind_eq_ok_iff.mpr ⟨specialties, ?_, h⟩
    refine Fallible.foldlM_mono (fun use huse b b' hkeep => ?_) hfold
    obtain ⟨p, hp, hkeep⟩ := Fallible.bind_eq_ok_iff.mp hkeep
    have hget := hw _ (List.mem_map_of_mem huse) _ (useSpecialty_eq_ok_iff.mp hp)
    exact Fallible.bind_eq_ok_iff.mpr ⟨p, useSpecialty_eq_ok_iff.mpr hget, hkeep⟩
  · exact h
  · cases h

theorem pizzaOf_of_lookups (hw : WithinOn make.pizzaLookups t t') {pizza : Pizza}
    (h : t.pizzaOf make = .ok pizza) : t'.pizzaOf make = .ok pizza := by
  obtain ⟨size, word, body, hsize, hword, hbody, h⟩ := pizzaOf_eq_ok_iff.mp h
  rw [SyntaxTree.pizzaLookups, SyntaxTree.child_eq_ok_iff.mp hsize, Option.bind_some,
    SyntaxTree.child_eq_ok_iff.mp hbody] at hw
  refine pizzaOf_eq_ok_iff.mpr ⟨size, word, body, hsize, hword, hbody, ?_⟩
  refine Fallible.foldlM_mono (fun clause hclause b b' hadd => ?_) h
  refine addClause_of_lookups (fun name hname => hw name ?_) hadd
  exact List.mem_flatMap.mpr ⟨clause, hclause, hname⟩

theorem pizzaOf_mono (hw : t.Within t') {pizza : Pizza} (h : t.pizzaOf make = .ok pizza) :
    t'.pizzaOf make = .ok pizza :=
  pizzaOf_of_lookups (hw.on _) h

end SymbolTable

/-! ### Ingredients -/

/-- **An ingredient has a meaning** exactly if its image is drawn as a square with an area. -/
theorem ingredientOf_eq_ok_iff {definition name path : SyntaxTree} {intrinsic : ImageSize}
    {i : Ingredient} :
    ingredientOf definition name path intrinsic = .ok i ↔
      ∃ size, drawnSize definition intrinsic = .ok size ∧ size.width = size.height ∧
        0 < size.height ∧ i = ⟨name.value, path.value, intrinsic, size, name.position⟩ := by
  simp only [ingredientOf, Fallible.bind_eq_ok_iff, ImageSize.isEmpty, ImageSize.isSquare,
    Bool.or_eq_true, decide_eq_true_eq, Bool.not_eq_true', decide_eq_false_iff_not]
  refine exists_congr fun size => and_congr_right fun _ => ?_
  constructor
  · intro h
    split at h
    · cases h
    next hempty =>
    split at h
    · cases h
    next hsquare =>
    obtain rfl := Fallible.pure_eq_ok_iff.mp h
    exact ⟨not_not.mp hsquare, Nat.pos_of_ne_zero (not_or.mp hempty).2, rfl⟩
  · rintro ⟨hsquare, hpos, rfl⟩
    rw [if_neg (by omega), if_neg (not_not.mpr hsquare)]
    rfl

/-- **An ingredient is drawn as a square with an area**, under the name that is written. -/
theorem of_ingredientOf {definition name path : SyntaxTree} {intrinsic : ImageSize}
    {i : Ingredient} (h : ingredientOf definition name path intrinsic = .ok i) :
    i.name = name.value ∧ i.size.width = i.size.height ∧ 0 < i.size.height := by
  obtain ⟨size, -, hsquare, hpos, rfl⟩ := ingredientOf_eq_ok_iff.mp h
  exact ⟨rfl, hsquare, hpos⟩

end PizzaLang
