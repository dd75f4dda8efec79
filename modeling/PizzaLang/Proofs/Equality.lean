import PizzaLang.Proofs.Layout
import PizzaLang.Proofs.WellFormed

/-!
# Equality of menus

Menus are compared by `PizzaLang.Menu.same`: units as paths, instructions one by one, and tables and
other listings without regard to their order. A listing is compared by looking up its names in the
other one, so this is an equality only where each name has one value
(`PizzaLang.Listing.Functional`). In the menus that are compiled it is so, because all that they
list comes from tables in which no name is bound twice.

* `PizzaLang.Menu.WellFormed.same_of_reposition`: menus are equal if they are the same once
  positions have been changed, by a function that keeps positions apart unless they are equal;
* `PizzaLang.Menu.WellFormed.same_of_perm`: menus are equal if they differ in the order of their
  tables only.
-/

namespace PizzaLang

/-! ### Listings -/

namespace Listing

variable {α β : Type} {eq : α → α → Bool} {l l' : Listing α}

theorem same_eq_true_iff : l.same eq l' = true ↔ l.size = l'.size ∧
    ∀ e ∈ l.entries, ∃ v, l'.find? e.1 = some v ∧ eq e.2 v = true := by
  simp only [same, Bool.and_eq_true, beq_iff_eq, List.all_eq_true, Option.any_eq_true]

/-- **Each name has one value.** -/
def Functional (l : Listing α) : Prop := ∀ e ∈ l.entries, l.find? e.1 = some e.2

theorem functional_of_nodup (h : l.names.Nodup) : l.Functional := fun _ he => find?_of_mem h he

/-- Values that are all looked up somewhere are told apart by their names. -/
theorem functional_of_forall {g : String → Option α} (h : ∀ e ∈ l.entries, g e.1 = some e.2) :
    l.Functional := by
  intro e he
  cases hfind : l.find? e.1 with
  | none => exact absurd (mem_names.mpr ⟨e.2, he⟩) (find?_eq_none_iff.mp hfind)
  | some v =>
    have hv := h _ (mem_of_find?_eq_some hfind)
    rw [h e he] at hv
    exact hv.symm

/-- Listings that look the same through a view are equal if the view tells values apart. -/
theorem Functional.same_of_map {view : α → β} (hl : l.Functional) (hmap : l.map view = l'.map view)
    (heq : ∀ e ∈ l.entries, ∀ v, view e.2 = view v → eq e.2 v = true) : l.same eq l' = true := by
  refine same_eq_true_iff.mpr ⟨?_, fun e he => ?_⟩
  · have hlength := congrArg (fun l => l.entries.length) hmap
    simpa [map, size] using hlength
  · have hview : (l'.find? e.1).map view = some (view e.2) := by
      rw [← find?_map, ← hmap, find?_map, hl e he]
      rfl
    obtain ⟨v, hv, hve⟩ := Option.map_eq_some_iff.mp hview
    exact ⟨v, hv, heq e he v hve.symm⟩

/-- Listings that differ in their order only are equal. -/
theorem Functional.same_of_perm (hl : l.Functional) (hperm : l'.entries.Perm l.entries)
    (heq : ∀ e ∈ l.entries, eq e.2 e.2 = true) : l'.same eq l = true :=
  same_eq_true_iff.mpr ⟨hperm.length_eq, fun e he =>
    ⟨e.2, hl e (hperm.mem_iff.mp he), heq e (hperm.mem_iff.mp he)⟩⟩

end Listing

/-! ### Values with positions -/

/-- **A function on positions keeps apart** what is not equal. -/
def Position.Apart (f : Position → Position) : Prop := ∀ p q, f p = f q → p.Same q

theorem Position.apart_id : Position.Apart id := by
  rintro p q rfl
  exact ⟨rfl, rfl, rfl⟩

section Reposition

variable {f : Position → Position} (hf : Position.Apart f)

include hf

theorem Ingredient.same_of_reposition {a b : Ingredient} (h : a.reposition f = b.reposition f) :
    a.same b = true := by
  obtain ⟨hname, hreference, hintrinsic, hsize, hposition⟩ := Ingredient.mk.inj h
  exact decide_eq_true ⟨hname, hreference, hintrinsic, hsize, hf _ _ hposition⟩

theorem Portion.same_of_reposition {a b : Portion} (h : a.reposition f = b.reposition f) :
    a.same b = true := by
  obtain ⟨hingredient, hquantity⟩ := Portion.mk.inj h
  exact Bool.and_eq_true_iff.mpr
    ⟨Ingredient.same_of_reposition hf hingredient, beq_iff_eq.mpr hquantity⟩

theorem Specialty.same_of_reposition {a b : Specialty} (ha : a.portions.Functional)
    (h : a.reposition f = b.reposition f) : a.same b = true := by
  obtain ⟨hname, hportions, hposition⟩ := Specialty.mk.inj h
  have hsame : a.portions.same Portion.same b.portions = true :=
    ha.same_of_map hportions fun _ _ _ => Portion.same_of_reposition hf
  exact decide_eq_true ⟨hname, hsame, hf _ _ hposition⟩

variable {t : SymbolTable}

theorem Symbol.same_of_reposition {a b : Symbol}
    (ha : ∀ p, a = .specialty p → p.portions.Functional) (h : a.reposition f = b.reposition f) :
    a.same b = true := by
  cases a with
  | ingredient i =>
    cases b with
    | ingredient j => exact Ingredient.same_of_reposition hf (Symbol.ingredient.inj h)
    | specialty q => cases h
  | specialty p =>
    cases b with
    | ingredient j => cases h
    | specialty q => exact Specialty.same_of_reposition hf (ha p rfl) (Symbol.specialty.inj h)

/-- Pizzas that are made from a table of specialties with one value for each name are equal if they
look the same. -/
theorem Pizza.same_of_reposition {a b : Pizza} (ha : t.Serves a)
    (hspecialties : ∀ p, Symbol.specialty p ∈ t.toList → p.portions.Functional)
    (h : a.reposition f = b.reposition f) : a.same b = true := by
  obtain ⟨hsize, hportions, hnames, houtput⟩ := Pizza.mk.inj h
  have hbound : ∀ e ∈ a.specialties.entries, t.specialty? e.1 = some e.2 :=
    fun e he => SymbolTable.specialty?_eq_some_iff.mpr (ha.bound e he)
  have hsame : a.portions.same Portion.same b.portions = true :=
    (Listing.functional_of_nodup ha.portions.nodup).same_of_map hportions
      fun _ _ _ => Portion.same_of_reposition hf
  have hsame' : a.specialties.same Specialty.same b.specialties = true := by
    refine (Listing.functional_of_forall hbound).same_of_map hnames fun e he p hp => ?_
    refine Specialty.same_of_reposition hf (hspecialties _ ?_) hp
    exact List.mem_map.mpr ⟨_, SymbolTable.mem_entries_of_get? (ha.bound e he), rfl⟩
  exact decide_eq_true ⟨hsize, hsame, hsame', houtput⟩

end Reposition

/-! ### Menus -/

namespace Menu.WellFormed

variable {m m' : Menu} (hm : m.WellFormed)

include hm

theorem functional {p : Specialty} (hp : Symbol.specialty p ∈ m.symbols.toList) :
    p.portions.Functional :=
  Listing.functional_of_nodup (hm.specialties p hp).nodup

section Reposition

variable {f : Position → Position} (hf : Position.Apart f)

include hf

theorem symbol_same {e : String × Symbol} (he : e ∈ m.symbols.symbols.entries) {s : Symbol}
    (h : e.2.reposition f = s.reposition f) : e.2.same s = true :=
  Symbol.same_of_reposition hf (fun _ hp => hm.functional (hp ▸ List.mem_map_of_mem he)) h

theorem instructions_same {is : List Instruction} (hsub : ∀ i ∈ is, i ∈ m.instructions)
    {js : List Instruction}
    (h : is.map (Instruction.reposition f) = js.map (Instruction.reposition f)) :
    is.isEqv js Instruction.same = true := by
  induction is generalizing js with
  | nil =>
    obtain rfl : js = [] := List.map_eq_nil_iff.mp h.symm
    rfl
  | cons i is ih =>
    obtain ⟨j, js, rfl, hj, hjs⟩ := List.map_eq_cons_iff.mp h.symm
    rw [List.forall_mem_cons] at hsub
    obtain ⟨hposition, hpizza⟩ := Instruction.mk.inj hj.symm
    have hsame : i.pizza.same j.pizza = true :=
      Pizza.same_of_reposition hf (hm.pizzas i hsub.1) (fun _ hp => hm.functional hp) hpizza
    have hij : i.same j = true := decide_eq_true ⟨hf _ _ hposition, hsame⟩
    exact Bool.and_eq_true_iff.mpr ⟨hij, ih hsub.2 hjs.symm⟩

/-- **Menus that look the same once positions are changed are equal**, if the change keeps apart
what is not equal. -/
theorem same_of_reposition (hunit : m.unit.Same m'.unit)
    (hinstructions : m.instructions.map (Instruction.reposition f) =
      m'.instructions.map (Instruction.reposition f))
    (hsymbols : m.symbols.reposition f = m'.symbols.reposition f) : m.same m' = true := by
  have hsame : m.symbols.same m'.symbols = true :=
    (Listing.functional_of_nodup hm.keyed.nodup).same_of_map (SymbolTable.mk.inj hsymbols)
      fun _ he _ => hm.symbol_same hf he
  exact decide_eq_true ⟨hunit, hm.instructions_same hf (fun _ hi => hi) hinstructions, hsame⟩

end Reposition

/-- **Menus that differ in the order of their tables only are equal.** -/
theorem same_of_perm (hunit : m'.unit = m.unit) (hinstructions : m'.instructions = m.instructions)
    (hsymbols : m'.symbols.symbols.entries.Perm m.symbols.symbols.entries) :
    m'.same m = true := by
  have hsame : m'.symbols.same m.symbols = true :=
    (Listing.functional_of_nodup hm.keyed.nodup).same_of_perm hsymbols
      fun _ he => hm.symbol_same Position.apart_id he rfl
  have hsame' : m'.instructions.isEqv m.instructions Instruction.same = true := by
    rw [hinstructions]
    exact hm.instructions_same Position.apart_id (fun _ hi => hi) rfl
  exact decide_eq_true ⟨congrArg Path.components hunit, hsame', hsame⟩

end Menu.WellFormed

end PizzaLang
