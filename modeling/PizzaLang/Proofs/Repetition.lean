import Mathlib.Data.List.Induction
import PizzaLang.Proofs.Acceptance

/-!
# Repeated uses of an ingredient

An ingredient may be used more than once in a specialty, and in what is added to a pizza. Both times
it is listed once, in the place of its first use. In a specialty its quantity is that of the last
use, on a pizza that of the first.

* To go through some uses is to look all of them up first, and then to list what they give
  (`PizzaLang.Fallible.foldlM_eq_mapM`). This is why a use that has no meaning is an error even if
  its quantity would not count, and why the first such use is the one that is reported.
* What is listed, and under which names, is a matter of listings alone
  (`PizzaLang.Listing.names_foldl`, `PizzaLang.Listing.find?_foldl_set`,
  `PizzaLang.Listing.find?_foldl_keep`).
* On a pizza the clauses can be looked at apart: its portions come from the uses in all of its `add`
  clauses, and its specialties from all of its `of` clauses
  (`PizzaLang.SymbolTable.map_portions_foldlM_addClause`,
  `PizzaLang.SymbolTable.foldlM_keepSpecialty_of_addClause`).

The result is `PizzaLang.repeated_uses`.
-/

namespace PizzaLang

/-! ### Folds that ask for something of each item -/

namespace Fallible

variable {ε α β γ κ : Type} {f : γ → Except ε α} {cs before after : List γ} {c : γ}
  {found : List α}

/-- A fold that asks for something of each item, and then always goes on, can as well ask for all of
it first. -/
theorem foldlM_eq_mapM {g : β → α → β} (cs : List γ) (b : β) :
    cs.foldlM (fun b c => f c >>= fun a => pure (g b a)) b =
      cs.mapM f >>= fun found => pure (found.foldl g b) := by
  induction cs generalizing b with
  | nil => rfl
  | cons c cs ih =>
    rw [List.foldlM_cons, List.mapM_cons, bind_assoc, bind_assoc]
    refine bind_congr fun a => ?_
    rw [pure_bind, ih, bind_assoc]
    exact bind_congr fun found => (pure_bind _ _).symm

theorem exists_mapM_eq_ok_iff :
    (∃ found, cs.mapM f = .ok found) ↔ ∀ c ∈ cs, ∃ a, f c = .ok a := by
  induction cs with
  | nil => exact ⟨fun _ => by simp, fun _ => ⟨[], rfl⟩⟩
  | cons c cs ih =>
    rw [List.forall_mem_cons, ← ih, List.mapM_cons]
    simp only [bind_eq_ok_iff, pure_eq_ok_iff]
    constructor
    · rintro ⟨_, a, ha, found, hfound, -⟩
      exact ⟨⟨a, ha⟩, found, hfound⟩
    · rintro ⟨⟨a, ha⟩, found, hfound⟩
      exact ⟨a :: found, a, ha, found, hfound, rfl⟩

/-- What is found at one item of the list, and around it. -/
theorem exists_of_mapM_append (h : (before ++ c :: after).mapM f = .ok found) :
    ∃ front a back, before.mapM f = .ok front ∧ f c = .ok a ∧ after.mapM f = .ok back ∧
      found = front ++ a :: back := by
  rw [List.mapM_append, List.mapM_cons] at h
  simp only [bind_eq_ok_iff, pure_eq_ok_iff] at h
  obtain ⟨front, hfront, _, ⟨a, ha, back, hback, rfl⟩, rfl⟩ := h
  exact ⟨front, a, back, hfront, ha, hback, rfl⟩

/-- **The first item without an answer** gives the error. -/
theorem mapM_eq_error {e : ε} (hbefore : ∀ c ∈ before, ∃ a, f c = .ok a) (hc : f c = .error e) :
    (before ++ c :: after).mapM f = .error e := by
  obtain ⟨front, hfront⟩ := exists_mapM_eq_ok_iff.mpr hbefore
  rw [List.mapM_append, List.mapM_cons, hfront, hc]
  rfl

/-- A fold that asks for something of each item fails at the first item without an answer. -/
theorem foldlM_eq_error {g : β → α → β} {b : β} {e : ε} (hbefore : ∀ c ∈ before, ∃ a, f c = .ok a)
    (hc : f c = .error e) :
    (before ++ c :: after).foldlM (fun b c => f c >>= fun a => pure (g b a)) b = .error e := by
  rw [foldlM_eq_mapM, mapM_eq_error hbefore hc]
  rfl

theorem map_eq_ok_iff {x : Except ε α} {g : α → β} {b : β} :
    x.map g = .ok b ↔ ∃ a, x = .ok a ∧ g a = b := by
  cases x with
  | ok a =>
    change Except.ok (g a) = .ok b ↔ _
    simp
  | error e =>
    change Except.error e = .ok b ↔ _
    simp

theorem map_eq_error_iff {x : Except ε α} {g : α → β} {e : ε} :
    x.map g = .error e ↔ x = .error e := by
  cases x with
  | ok a =>
    change Except.ok (g a) = .error e ↔ _
    simp
  | error e' =>
    change Except.error e' = .error e ↔ _
    simp

theorem map_of_mapM {key : α → κ} {name : γ → κ} (hkey : ∀ c a, f c = .ok a → key a = name c)
    (h : cs.mapM f = .ok found) : found.map key = cs.map name := by
  induction cs generalizing found with
  | nil =>
    obtain rfl := pure_eq_ok_iff.mp h
    rfl
  | cons c cs ih =>
    rw [List.mapM_cons] at h
    simp only [bind_eq_ok_iff, pure_eq_ok_iff] at h
    obtain ⟨a, ha, rest, hrest, rfl⟩ := h
    rw [List.map_cons, List.map_cons, hkey c a ha, ih hrest]

end Fallible

/-! ### Values that are listed one after the other -/

namespace Listing

variable {α : Type} {l : Listing α} {name other : String} {value : α} {key : α → String}
  {before after values : List α}

theorem lookup_cons_eq {entries : List (String × α)} :
    ((name, value) :: entries).lookup other =
      if other = name then some value else entries.lookup other := by
  by_cases h : other = name
  · rw [if_pos h, h, List.lookup_cons_self]
  · rw [if_neg h, List.lookup_cons, beq_false_of_ne h]

theorem find?_push :
    (l.push name value).find? other =
      (l.find? other).or (if other = name then some value else none) := by
  rw [find?, push, List.lookup_append, lookup_cons_eq]
  rfl

/-- Entries in which the value of a name is replaced. -/
theorem lookup_map_replace (entries : List (String × α)) :
    (entries.map fun e => if e.1 = name then (name, value) else e).lookup other =
      if other = name then (entries.lookup name).map fun _ => value else entries.lookup other := by
  induction entries with
  | nil => simp
  | cons e entries ih =>
    rcases e with ⟨n, v⟩
    rw [List.map_cons, lookup_cons_eq, lookup_cons_eq]
    by_cases hn : n = name
    · subst hn
      rw [if_pos rfl, if_pos rfl, lookup_cons_eq, ih]
      by_cases h : other = n <;> simp [h]
    · rw [if_neg hn, lookup_cons_eq, ih, if_neg (Ne.symm hn)]
      by_cases h : other = name
      · simp [h, Ne.symm hn]
      · simp [h]

/-- A value that is set is found, and all others as before. -/
theorem find?_set :
    (l.set name value).find? other = if other = name then some value else l.find? other := by
  rw [set]
  by_cases hc : l.contains name
  · obtain ⟨v, hv⟩ := Option.ne_none_iff_exists'.mp
      fun hn => find?_eq_none_iff.mp hn (contains_iff.mp hc)
    rw [find?] at hv
    rw [if_pos hc, find?, lookup_map_replace, hv]
    rfl
  · rw [if_neg hc, find?_push]
    by_cases h : other = name
    · rw [h, find?_eq_none_iff.mpr fun hn => hc (contains_iff.mpr hn)]
      simp
    · simp [h]

/-- A value that is kept is found unless its name has one already. -/
theorem find?_keep :
    (l.keep name value).find? other =
      (l.find? other).or (if other = name then some value else none) := by
  rw [keep]
  by_cases hc : l.contains name
  · rw [if_pos hc]
    by_cases h : other = name
    · obtain ⟨v, hv⟩ := Option.ne_none_iff_exists'.mp
        fun hn => find?_eq_none_iff.mp hn (contains_iff.mp hc)
      rw [h, hv]
      rfl
    · rw [if_neg h, Option.or_none]
  · rw [if_neg hc, find?_push]

/-- **Names are listed in the order of their first values**, whichever value of a name counts. -/
theorem names_foldl {put : Listing α → String → α → Listing α}
    (hput : ∀ l name value,
      (put l name value).names = if name ∈ l.names then l.names else l.names ++ [name]) :
    (values.foldl (fun l value => put l (key value) value) .empty).names =
      (values.map key).eraseDups := by
  induction values using List.reverseRecOn with
  | nil => rfl
  | append_singleton values value ih =>
    rw [List.foldl_append, List.foldl_cons, List.foldl_nil, hput, ih, List.map_append,
      List.eraseDups_append]
    by_cases h : key value ∈ values.map key
    · rw [if_pos (List.mem_eraseDups.mpr h)]
      simp [List.removeAll, List.mem_map.mp h]
    · rw [if_neg fun hm => h (List.mem_eraseDups.mp hm)]
      have hnew : [key value].removeAll (values.map key) = [key value] := by
        simpa [List.removeAll] using h
      rw [List.map_cons, List.map_nil, hnew]
      rfl

/-- Where values are set, **the last one counts**. -/
theorem find?_foldl_set (hlast : ∀ v ∈ after, key v ≠ key value) :
    ((before ++ value :: after).foldl (fun l v => l.set (key v) v) l).find? (key value) =
      some value := by
  rw [List.foldl_append, List.foldl_cons]
  have hfound : ((before.foldl (fun l v => l.set (key v) v) l).set (key value) value).find?
      (key value) = some value := by
    rw [find?_set, if_pos rfl]
  revert hfound
  generalize (before.foldl (fun l v => l.set (key v) v) l).set (key value) value = m
  intro hfound
  induction after generalizing m with
  | nil => exact hfound
  | cons v after ih =>
    rw [List.forall_mem_cons] at hlast
    refine ih hlast.2 _ ?_
    rw [find?_set, if_neg hlast.1.symm, hfound]

/-- Where values are kept, one that is found stays. -/
theorem find?_foldl_keep_of_some (h : l.find? name = some value) :
    (values.foldl (fun l v => l.keep (key v) v) l).find? name = some value := by
  induction values generalizing l with
  | nil => exact h
  | cons v values ih =>
    refine ih ?_
    rw [find?_keep, h]
    rfl

/-- Where values are kept, **the first one counts**. -/
theorem find?_foldl_keep (hl : l.find? (key value) = none)
    (hfirst : ∀ v ∈ before, key v ≠ key value) :
    ((before ++ value :: after).foldl (fun l v => l.keep (key v) v) l).find? (key value) =
      some value := by
  induction before generalizing l with
  | nil =>
    rw [List.nil_append, List.foldl_cons]
    refine find?_foldl_keep_of_some ?_
    rw [find?_keep, hl, if_pos rfl]
    rfl
  | cons v before ih =>
    rw [List.forall_mem_cons] at hfirst
    refine ih ?_ hfirst.2
    rw [find?_keep, hl, if_neg hfirst.1.symm]
    rfl

end Listing

/-! ### Uses -/

namespace SyntaxTree

/-- **A last use**: none of the same name comes after it. -/
def IsLastOf (u : SyntaxTree) (uses : List SyntaxTree) : Prop :=
  ∃ before after, uses = before ++ u :: after ∧ ∀ v ∈ after, v.value ≠ u.value

/-- **A first use**: none of the same name comes before it. -/
def IsFirstOf (u : SyntaxTree) (uses : List SyntaxTree) : Prop :=
  ∃ before after, uses = before ++ u :: after ∧ ∀ v ∈ before, v.value ≠ u.value

theorem partsOf_cons {kind : NodeKind} {clause : SyntaxTree} {clauses : List SyntaxTree} :
    partsOf kind (clause :: clauses) =
      (if clause.kind = kind then clause.children else []) ++ partsOf kind clauses := by
  by_cases h : clause.kind = kind <;> simp [partsOf, h]

end SyntaxTree

namespace SymbolTable

variable {t : SymbolTable} {u make : SyntaxTree} {p : Portion} {uses clauses : List SyntaxTree}
  {pizza pizza' : Pizza}

/-- **A use is valid** and gives a portion: its name is bound to the ingredient, and its quantity
has a value, which is positive. -/
structure Gives (t : SymbolTable) (u : SyntaxTree) (p : Portion) : Prop where
  bound : t.get? u.value = some (.ingredient p.ingredient)
  value : ∃ e, u.child? 0 = some e ∧ e.evaluate = .ok p.quantity
  positive : 0 < p.quantity

theorem gives_iff : t.Gives u p ↔ t.portionOf u = .ok p := by
  rw [portionOf_eq_ok_iff]
  constructor
  · rintro ⟨hbound, ⟨e, he, hvalue⟩, hpos⟩
    exact ⟨hbound, e, SyntaxTree.child_eq_ok_iff.mpr he, hvalue, hpos⟩
  · rintro ⟨hbound, e, he, hvalue, hpos⟩
    exact ⟨hbound, ⟨e, SyntaxTree.child_eq_ok_iff.mp he, hvalue⟩, hpos⟩

/-- **Why a use is not valid.** -/
inductive Refuses (t : SymbolTable) (u : SyntaxTree) : SemanticError → Prop
  /-- Its name is not declared. -/
  | undefined : t.get? u.value = none → Refuses t u (.undefined u.kind u.value u.position)
  /-- Its name is declared as something else. -/
  | misnamed {s : Symbol} : t.get? u.value = some s → s.kind ≠ .ingredient →
      Refuses t u (.kindMismatch u.value .ingredient s.kind u.position)
  /-- Its quantity has no value. -/
  | unvalued {i : Ingredient} {e : SyntaxTree} {error : SemanticError} :
      t.get? u.value = some (.ingredient i) → u.child? 0 = some e → e.evaluate = .error error →
      Refuses t u error
  /-- Its quantity is not positive. -/
  | notPositive {i : Ingredient} {e : SyntaxTree} {q : Int} :
      t.get? u.value = some (.ingredient i) → u.child? 0 = some e → e.evaluate = .ok q → q ≤ 0 →
      Refuses t u (.invalidQuantity u.value q u.position)

theorem portionOf_of_lookup {e : SemanticError} (h : t.lookup u .ingredient = .error e) :
    t.portionOf u = .error e := by
  rw [portionOf, useIngredient_eq_error_iff.mpr h]
  rfl

theorem portionOf_of_ingredient {i : Ingredient} {e : SyntaxTree}
    (h : t.get? u.value = some (.ingredient i)) (he : u.child? 0 = some e) :
    t.portionOf u = e.evaluate >>= fun q =>
      if q ≤ 0 then .error (.invalidQuantity u.value q u.position) else pure ⟨i, q⟩ := by
  rw [portionOf, useIngredient_eq_ok_iff.mpr h, SyntaxTree.child_eq_ok_iff.mpr he]
  rfl

/-- **A use that is not valid is refused**, for the reason that it is not. -/
theorem exists_refuses (hu : u.IsUse) (h : ¬∃ p, t.Gives u p) :
    ∃ e, t.Refuses u e ∧ t.portionOf u = .error e := by
  have hchild : ∃ e, u.child? 0 = some e := by
    obtain @⟨_, _, quantity, -⟩ := hu
    exact ⟨quantity, rfl⟩
  obtain ⟨e, he⟩ := hchild
  rcases hget : t.get? u.value with _ | i | s
  · refine ⟨_, .undefined hget, portionOf_of_lookup ?_⟩
    rw [lookup, hget]
  · cases hvalue : e.evaluate with
    | error error =>
      refine ⟨error, .unvalued hget he hvalue, ?_⟩
      rw [portionOf_of_ingredient hget he, hvalue]
      rfl
    | ok q =>
      have hq : q ≤ 0 := Int.not_lt.mp fun hpos => h ⟨⟨i, q⟩, hget, ⟨e, he, hvalue⟩, hpos⟩
      refine ⟨_, .notPositive hget he hvalue hq, ?_⟩
      rw [portionOf_of_ingredient hget he, hvalue]
      exact if_pos hq
  · refine ⟨_, .misnamed hget (by simp [Symbol.kind]), portionOf_of_lookup ?_⟩
    rw [lookup, hget]
    rfl

end SymbolTable

/-! ### Lists of uses -/

section Uses

variable {ε α : Type} {f : SyntaxTree → Except ε α} {key : α → String} {uses : List SyntaxTree}

/-- What the uses give is found first, and then listed, in the order of the first uses. -/
theorem exists_foldlM_put (put : Listing α → String → α → Listing α)
    (hput : ∀ l name value,
      (put l name value).names = if name ∈ l.names then l.names else l.names ++ [name])
    (hkey : ∀ u a, f u = .ok a → key a = u.value) (h : ∀ u ∈ uses, ∃ a, f u = .ok a) :
    ∃ found, uses.mapM f = .ok found ∧
      uses.foldlM (fun l u => f u >>= fun a => pure (put l (key a) a)) .empty =
        .ok (found.foldl (fun l a => put l (key a) a) .empty) ∧
      (found.foldl (fun l a => put l (key a) a) .empty).names =
        (uses.map SyntaxTree.value).eraseDups := by
  obtain ⟨found, hfound⟩ := Fallible.exists_mapM_eq_ok_iff.mpr h
  refine ⟨found, hfound, ?_, ?_⟩
  · rw [Fallible.foldlM_eq_mapM, hfound]
    rfl
  · rw [← Fallible.map_of_mapM hkey hfound]
    exact Listing.names_foldl hput

/-- Uses of other names give values under other names. -/
theorem key_ne_of_mapM (hkey : ∀ u a, f u = .ok a → key a = u.value) {u : SyntaxTree} {a : α}
    (ha : f u = .ok a) {found : List α} (hfound : uses.mapM f = .ok found)
    (h : ∀ v ∈ uses, v.value ≠ u.value) : ∀ b ∈ found, key b ≠ key a := by
  rw [← List.forall_mem_map (f := key) (P := (· ≠ key a)), Fallible.map_of_mapM hkey hfound,
    List.forall_mem_map, hkey u a ha]
  exact h

/-- Where what the uses give is set under their names, a name has the place of its first use and
the value of its last. -/
theorem exists_foldlM_set (hkey : ∀ u a, f u = .ok a → key a = u.value)
    (h : ∀ u ∈ uses, ∃ a, f u = .ok a) :
    ∃ l : Listing α,
      uses.foldlM (fun l u => f u >>= fun a => pure (l.set (key a) a)) .empty = .ok l ∧
      l.names = (uses.map SyntaxTree.value).eraseDups ∧
      ∀ u, u.IsLastOf uses → ∃ a, f u = .ok a ∧ l.find? u.value = some a := by
  obtain ⟨found, hfound, hfold, hnames⟩ :=
    exists_foldlM_put Listing.set (fun _ _ _ => Listing.names_set) hkey h
  refine ⟨_, hfold, hnames, ?_⟩
  rintro u ⟨before, after, rfl, hlast⟩
  obtain ⟨front, a, back, -, ha, hback, rfl⟩ := Fallible.exists_of_mapM_append hfound
  refine ⟨a, ha, ?_⟩
  rw [← hkey u a ha]
  exact Listing.find?_foldl_set (key_ne_of_mapM hkey ha hback hlast)

/-- Where it is kept, a name has the place and the value of its first use. -/
theorem exists_foldlM_keep (hkey : ∀ u a, f u = .ok a → key a = u.value)
    (h : ∀ u ∈ uses, ∃ a, f u = .ok a) :
    ∃ l : Listing α,
      uses.foldlM (fun l u => f u >>= fun a => pure (l.keep (key a) a)) .empty = .ok l ∧
      l.names = (uses.map SyntaxTree.value).eraseDups ∧
      ∀ u, u.IsFirstOf uses → ∃ a, f u = .ok a ∧ l.find? u.value = some a := by
  obtain ⟨found, hfound, hfold, hnames⟩ :=
    exists_foldlM_put Listing.keep (fun _ _ _ => Listing.names_keep) hkey h
  refine ⟨_, hfold, hnames, ?_⟩
  rintro u ⟨before, after, rfl, hfirst⟩
  obtain ⟨front, a, back, hfront, ha, -, rfl⟩ := Fallible.exists_of_mapM_append hfound
  refine ⟨a, ha, ?_⟩
  rw [← hkey u a ha]
  exact Listing.find?_foldl_keep rfl (key_ne_of_mapM hkey ha hfront hfirst)

end Uses

/-! ### Clauses of a pizza -/

namespace SymbolTable

variable {t : SymbolTable} {clauses : List SyntaxTree} {pizza pizza' : Pizza}

/-- **The portions of a pizza** come from its `add` clauses alone, as long as the specialties that
it starts from are declared. -/
theorem map_portions_foldlM_addClause (pizza : Pizza) (hclauses : ∀ c ∈ clauses, c.IsClause)
    (hbases : ∀ b ∈ SyntaxTree.partsOf .ofClause clauses, ∃ p, t.useSpecialty b = .ok p) :
    (clauses.foldlM t.addClause pizza).map Pizza.portions =
      (SyntaxTree.partsOf .add clauses).foldlM t.keepPortion pizza.portions := by
  induction clauses generalizing pizza with
  | nil => rfl
  | cons clause clauses ih =>
    rw [List.forall_mem_cons] at hclauses
    rw [SyntaxTree.partsOf_cons, List.forall_mem_append] at hbases
    rw [SyntaxTree.partsOf_cons, List.foldlM_cons, List.foldlM_append]
    obtain ⟨hclause, hclauses⟩ := hclauses
    cases hclause with
    | @add value position uses =>
      change ((uses.foldlM t.keepPortion pizza.portions >>= fun portions =>
        pure { pizza with portions }) >>= _).map Pizza.portions =
          uses.foldlM t.keepPortion pizza.portions >>= _
      cases uses.foldlM t.keepPortion pizza.portions with
      | error e => rfl
      | ok portions => exact ih _ hclauses hbases.2
    | @names value position names =>
      obtain ⟨specialties, hspecialties⟩ : ∃ specialties,
          names.foldlM t.keepSpecialty pizza.specialties = .ok specialties :=
        (Fallible.exists_foldlM_eq_ok_iff fun _ _ _ => Fallible.exists_map_eq_ok_iff).mpr hbases.1
      change ((names.foldlM t.keepSpecialty pizza.specialties >>= fun specialties =>
        pure { pizza with specialties }) >>= _).map Pizza.portions = _
      rw [hspecialties]
      exact ih _ hclauses hbases.2
    | save => exact ih _ hclauses hbases.2

/-- **The specialties of a pizza** come from its `of` clauses alone. -/
theorem foldlM_keepSpecialty_of_addClause (hclauses : ∀ c ∈ clauses, c.IsClause)
    (h : clauses.foldlM t.addClause pizza = .ok pizza') :
    (SyntaxTree.partsOf .ofClause clauses).foldlM t.keepSpecialty pizza.specialties =
      .ok pizza'.specialties := by
  induction clauses generalizing pizza with
  | nil =>
    obtain rfl := Except.ok.inj h
    rfl
  | cons clause clauses ih =>
    rw [List.forall_mem_cons] at hclauses
    rw [List.foldlM_cons] at h
    rw [SyntaxTree.partsOf_cons, List.foldlM_append]
    obtain ⟨added, hadded, h⟩ := Fallible.bind_eq_ok_iff.mp h
    refine Fallible.bind_eq_ok_iff.mpr ⟨added.specialties, ?_, ih hclauses.2 h⟩
    obtain ⟨hclause, -⟩ := hclauses
    cases hclause with
    | add =>
      obtain ⟨portions, -, hadded⟩ := Fallible.bind_eq_ok_iff.mp hadded
      obtain rfl := Fallible.pure_eq_ok_iff.mp hadded
      rfl
    | names =>
      obtain ⟨specialties, hspecialties, hadded⟩ := Fallible.bind_eq_ok_iff.mp hadded
      obtain rfl := Fallible.pure_eq_ok_iff.mp hadded
      exact hspecialties
    | save =>
      obtain rfl := Except.ok.inj hadded
      rfl

theorem pizzaOf_eq_foldlM (t : SymbolTable) (clauses : List SyntaxTree) {l size pizza : NodeLabel}
    (hsize : size.value ∈ ["big", "medium", "personal"]) :
    ∃ word, t.pizzaOf (.node l [.node size [.node pizza clauses]]) =
      clauses.foldlM t.addClause (.plain word) := by
  obtain ⟨word, hword⟩ := Option.ne_none_iff_exists'.mp fun hnone =>
    PizzaSize.ofWord?_eq_none_iff.mp hnone hsize
  refine ⟨word, ?_⟩
  rw [pizzaOf, show SyntaxTree.child (.node l [.node size [.node pizza clauses]]) 0 =
    pure (.node size [.node pizza clauses]) from rfl, pure_bind]
  rw [show SyntaxTree.value (.node size [.node pizza clauses]) = size.value from rfl, hword]
  rfl

end SymbolTable

/-! ### Statements -/

theorem SyntaxTree.isUse_of_mem_partsOf {u : SyntaxTree} {clauses : List SyntaxTree}
    (h : ∀ c ∈ clauses, c.IsClause) (hu : u ∈ partsOf .add clauses) : u.IsUse := by
  obtain ⟨clause, hmem, hkind, hu⟩ := mem_partsOf.mp hu
  cases h clause hmem with
  | add huses => exact huses u hu
  | names => cases hkind
  | save => cases hkind

namespace SymbolTable

variable {t : SymbolTable} {make statement u : SyntaxTree} {before after uses : List SyntaxTree}

/-- **A specialty**: an ingredient has the place of its first use and the quantity of its last. -/
theorem exists_specialtyOf_of_gives (ht : t.Keyed) (definition name : NodeLabel)
    (h : ∀ u ∈ uses, ∃ p, t.Gives u p) :
    ∃ s, t.specialtyOf (.node definition [.node name uses]) = .ok s ∧
      s.name = name.value ∧ s.portions.names = (uses.map SyntaxTree.value).eraseDups ∧
      ∀ u, u.IsLastOf uses → ∃ p, t.Gives u p ∧ s.portions.find? u.value = some p := by
  simp only [gives_iff] at h ⊢
  obtain ⟨portions, hfold, hnames, hlast⟩ := exists_foldlM_set
    (fun u p hp => ht.name_of_get? (portionOf_eq_ok_iff.mp hp).1) h
  exact ⟨⟨name.value, portions, name.position⟩,
    specialtyOf_eq_ok_iff.mpr ⟨.node name uses, portions, rfl, hfold, rfl⟩, rfl, hnames, hlast⟩

/-- **A pizza**: an ingredient has the place and the quantity of its first use, and specialties are
listed once each. -/
theorem exists_pizzaOf_of_gives (ht : t.Keyed) (hmake : make.IsStatement)
    (hkind : make.kind = .make)
    (hsizes : ∀ z ∈ make.sizes, z.value ∈ ["big", "medium", "personal"])
    (hbases : ∀ b ∈ make.bases, ∃ p, t.get? b.value = some (.specialty p))
    (huses : ∀ u ∈ make.uses, ∃ p, t.Gives u p) :
    ∃ pizza, t.pizzaOf make = .ok pizza ∧
      pizza.portions.names = (make.uses.map SyntaxTree.value).eraseDups ∧
      (∀ u, u.IsFirstOf make.uses → ∃ p, t.Gives u p ∧ pizza.portions.find? u.value = some p) ∧
      pizza.specialties.names = (make.bases.map SyntaxTree.value).eraseDups ∧
      ∀ b ∈ make.bases, ∃ p, t.get? b.value = some (.specialty p) ∧
        pizza.specialties.find? b.value = some p := by
  simp only [gives_iff, ← useSpecialty_eq_ok_iff] at huses hbases ⊢
  cases hmake with
  | inclusion => cases hkind
  | definition => cases hkind
  | @make value position size pizza clauses hclauses =>
    rw [SyntaxTree.uses_make] at huses ⊢
    rw [SyntaxTree.bases_make] at hbases ⊢
    have hsize : size.value ∈ ["big", "medium", "personal"] :=
      hsizes (.node size [.node pizza clauses]) List.mem_cons_self
    obtain ⟨word, hpizza⟩ := pizzaOf_eq_foldlM t clauses hsize
    rw [hpizza]
    obtain ⟨portions, hportions, hnames, hfirst⟩ := exists_foldlM_keep
      (fun u p hp => ht.name_of_get? (portionOf_eq_ok_iff.mp hp).1) huses
    obtain ⟨specialties, hspecialties, hnames', hfirst'⟩ := exists_foldlM_keep
      (fun u p hp => ht.name_of_get? (useSpecialty_eq_ok_iff.mp hp)) hbases
    obtain ⟨pizza, hfold, rfl⟩ := Fallible.map_eq_ok_iff.mp
      ((map_portions_foldlM_addClause (.plain word) hclauses hbases).trans hportions)
    obtain rfl := Except.ok.inj
      ((foldlM_keepSpecialty_of_addClause hclauses hfold).symm.trans hspecialties)
    refine ⟨pizza, hfold, hnames, hfirst, hnames', fun b hb => ?_⟩
    have hserves : t.Serves pizza := serves_of_pizzaOf ht (hpizza.trans hfold)
    obtain ⟨p, hp⟩ := Option.ne_none_iff_exists'.mp fun hnone =>
      Listing.find?_eq_none_iff.mp hnone
        (hnames' ▸ List.mem_eraseDups.mpr (List.mem_map_of_mem hb))
    exact ⟨p, useSpecialty_eq_ok_iff.mpr (hserves.bound _ (Listing.mem_of_find?_eq_some hp)), hp⟩

/-- A specialty with a use that is not valid. -/
theorem specialtyOf_eq_error (definition name : NodeLabel) {e : SemanticError}
    (hbefore : ∀ v ∈ before, ∃ p, t.portionOf v = .ok p) (hu : t.portionOf u = .error e) :
    t.specialtyOf (.node definition [.node name (before ++ u :: after)]) = .error e := by
  have hfold : (before ++ u :: after).foldlM t.setPortion .empty = .error e :=
    Fallible.foldlM_eq_error hbefore hu
  change ((before ++ u :: after).foldlM t.setPortion .empty >>= _) = _
  rw [hfold]
  rfl

/-- A pizza with a use that is not valid. -/
theorem pizzaOf_eq_error {l size pizza : NodeLabel} {clauses : List SyntaxTree} {e : SemanticError}
    (hsize : size.value ∈ ["big", "medium", "personal"]) (hclauses : ∀ c ∈ clauses, c.IsClause)
    (hbases : ∀ b ∈ SyntaxTree.partsOf .ofClause clauses, ∃ p, t.useSpecialty b = .ok p)
    (huses : SyntaxTree.partsOf .add clauses = before ++ u :: after)
    (hbefore : ∀ v ∈ before, ∃ p, t.portionOf v = .ok p) (hu : t.portionOf u = .error e) :
    t.pizzaOf (.node l [.node size [.node pizza clauses]]) = .error e := by
  obtain ⟨word, hpizza⟩ := pizzaOf_eq_foldlM t clauses hsize
  rw [hpizza, ← Fallible.map_eq_error_iff, map_portions_foldlM_addClause _ hclauses hbases, huses]
  exact Fallible.foldlM_eq_error hbefore hu

end SymbolTable

/-! ### What statements do -/

section Statements

variable {c : Compiler} {compile : Path → String → CompileM Menu} {menu : Menu}

/-- **A definition adds its specialty** to the names, if the name is free. -/
theorem statement_of_specialtyOf {define definition name : NodeLabel} {uses : List SyntaxTree}
    {p : Specialty} (hdefine : define.kind = .definition)
    (hdefinition : definition.kind = .specialty)
    (hp : menu.symbols.specialtyOf (.node definition [.node name uses]) = .ok p)
    (hfree : p.name ∉ menu.symbols.names) (s : Session) :
    c.statement compile menu (.node define [.node definition [.node name uses]]) s =
      .ok { menu with symbols := menu.symbols.append (.only (.specialty p)) }
        { s with events := s.events.push (.declared (.specialty p)) } := by
  obtain ⟨kind, value, position⟩ := define
  obtain ⟨kind', value', position'⟩ := definition
  obtain rfl : kind = .definition := hdefine
  obtain rfl : kind' = .specialty := hdefinition
  have hinsert := SymbolTable.insert_eq_ok_iff.mpr
    (⟨hfree, rfl⟩ : (Symbol.specialty p).name ∉ menu.symbols.names ∧ _)
  change ((CompileM.lift .semantic (menu.symbols.specialtyOf _) >>= _) >>= _) s = _
  rw [hp]
  change (CompileM.lift _ (menu.symbols.insert (.specialty p)) >>= _) _ = _
  rw [hinsert]
  rfl

/-- **An order adds its instruction.** -/
theorem statement_of_pizzaOf {make : SyntaxTree} {pizza : Pizza} (hkind : make.kind = .make)
    (hpizza : menu.symbols.pizzaOf make = .ok pizza) (s : Session) :
    c.statement compile menu make s =
      .ok { menu with instructions := menu.instructions ++ [⟨make.position, pizza⟩] }
        { s with events := s.events.push (.ordered ⟨make.position, pizza⟩) } := by
  rw [Compiler.statement, hkind]
  change (CompileM.lift .semantic (menu.symbols.pizzaOf make) >>= _) s = _
  rw [hpizza]
  rfl

/-- **A statement with a use that is not valid** fails with the error of the first such use. -/
theorem exists_statement_eq_error {statement u : SyntaxTree} {before after : List SyntaxTree}
    (s : Session) (hshape : statement.IsStatement)
    (hsizes : ∀ z ∈ statement.sizes, z.value ∈ ["big", "medium", "personal"])
    (hbases : ∀ b ∈ statement.bases, ∃ p, menu.symbols.get? b.value = some (.specialty p))
    (huses : statement.uses = before ++ u :: after)
    (hbefore : ∀ v ∈ before, ∃ p, menu.symbols.Gives v p) (hu : ¬∃ p, menu.symbols.Gives u p) :
    ∃ e, menu.symbols.Refuses u e ∧
      c.statement compile menu statement s = .error (.semantic e) s := by
  simp only [SymbolTable.gives_iff] at hbefore
  simp only [← SymbolTable.useSpecialty_eq_ok_iff] at hbases
  have hmem : u ∈ before ++ u :: after := by simp
  cases hshape with
  | inclusion =>
    change [] = before ++ u :: after at huses
    simp at huses
  | @definition value position defined hdefined =>
    cases hdefined with
    | ingredient =>
      rw [SyntaxTree.uses_ingredient rfl] at huses
      simp at huses
    | resized =>
      rw [SyntaxTree.uses_ingredient rfl] at huses
      simp at huses
    | @specialty _ _ name uses hspecialty =>
      rw [SyntaxTree.uses_specialty] at huses
      subst huses
      obtain ⟨e, hrefuses, he⟩ := SymbolTable.exists_refuses (hspecialty u hmem) hu
      refine ⟨e, hrefuses, ?_⟩
      change ((CompileM.lift .semantic (menu.symbols.specialtyOf _) >>= _) >>= _) s = _
      rw [SymbolTable.specialtyOf_eq_error _ _ hbefore he]
      rfl
  | @make value position size pizza clauses hclauses =>
    rw [SyntaxTree.uses_make] at huses
    rw [SyntaxTree.bases_make] at hbases
    have hsize : size.value ∈ ["big", "medium", "personal"] :=
      hsizes (.node size [.node pizza clauses]) List.mem_cons_self
    obtain ⟨e, hrefuses, he⟩ := SymbolTable.exists_refuses
      (SyntaxTree.isUse_of_mem_partsOf hclauses (huses ▸ hmem)) hu
    refine ⟨e, hrefuses, ?_⟩
    change (CompileM.lift .semantic (menu.symbols.pizzaOf _) >>= _) s = _
    rw [SymbolTable.pizzaOf_eq_error hsize hclauses hbases huses hbefore he]
    rfl

end Statements

/-- **Repeated uses.** The table is any that declarations and merges lead to, so that each
declaration stands under its own name.

* A specialty lists each ingredient once, in the order of the first uses, with the quantity of its
  last use. Its definition adds it to the names and does nothing else, if its name is free.
* A pizza lists what is added to it in the same order, with the quantity of the first use of each,
  and the specialties that it starts from once each, in the order of their first mention. Its order
  adds it to the instructions and does nothing else.
* Where a use is not valid, be it one whose quantity would not count, the statement fails, with the
  error of the first use that is not valid, and nothing else happens. -/
theorem repeated_uses (c : Compiler) (compile : Path → String → CompileM Menu) (menu : Menu)
    (hmenu : menu.symbols.Keyed) :
    (∀ definition name uses, (∀ u ∈ uses, ∃ p, menu.symbols.Gives u p) →
      ∃ s, menu.symbols.specialtyOf (.node definition [.node name uses]) = .ok s ∧
        s.portions.names = (uses.map SyntaxTree.value).eraseDups ∧
        (∀ u, u.IsLastOf uses →
          ∃ p, menu.symbols.Gives u p ∧ s.portions.find? u.value = some p) ∧
        ∀ define session, define.kind = .definition → definition.kind = .specialty →
          name.value ∉ menu.symbols.names →
          c.statement compile menu (.node define [.node definition [.node name uses]]) session =
            .ok { menu with symbols := menu.symbols.append (.only (.specialty s)) }
              { session with events := session.events.push (.declared (.specialty s)) }) ∧
    ∀ statement : SyntaxTree, statement.IsStatement →
      (∀ z ∈ statement.sizes, z.value ∈ ["big", "medium", "personal"]) →
      (∀ b ∈ statement.bases, ∃ p, menu.symbols.get? b.value = some (.specialty p)) →
      (statement.kind = .make → (∀ u ∈ statement.uses, ∃ p, menu.symbols.Gives u p) →
        ∃ pizza, menu.symbols.pizzaOf statement = .ok pizza ∧
          pizza.portions.names = (statement.uses.map SyntaxTree.value).eraseDups ∧
          (∀ u, u.IsFirstOf statement.uses →
            ∃ p, menu.symbols.Gives u p ∧ pizza.portions.find? u.value = some p) ∧
          pizza.specialties.names = (statement.bases.map SyntaxTree.value).eraseDups ∧
          (∀ b ∈ statement.bases, ∃ p, menu.symbols.get? b.value = some (.specialty p) ∧
            pizza.specialties.find? b.value = some p) ∧
          ∀ session, c.statement compile menu statement session =
            .ok { menu with instructions := menu.instructions ++ [⟨statement.position, pizza⟩] }
              { session with
                events := session.events.push (.ordered ⟨statement.position, pizza⟩) }) ∧
      ∀ before u after s, statement.uses = before ++ u :: after →
        (∀ v ∈ before, ∃ p, menu.symbols.Gives v p) → (¬∃ p, menu.symbols.Gives u p) →
        ∃ e, menu.symbols.Refuses u e ∧
          c.statement compile menu statement s = .error (.semantic e) s := by
  refine ⟨fun definition name uses h => ?_, fun statement hshape hsizes hbases => ⟨?_, ?_⟩⟩
  · obtain ⟨s, hs, hname, hnames, hlast⟩ :=
      SymbolTable.exists_specialtyOf_of_gives hmenu definition name h
    refine ⟨s, hs, hnames, hlast, fun define session hdefine hdefinition hfree => ?_⟩
    exact statement_of_specialtyOf hdefine hdefinition hs (hname ▸ hfree) session
  · intro hkind huses
    obtain ⟨pizza, hpizza, hnames, hfirst, hnames', hfound⟩ :=
      SymbolTable.exists_pizzaOf_of_gives hmenu hshape hkind hsizes hbases huses
    exact ⟨pizza, hpizza, hnames, hfirst, hnames', hfound, statement_of_pizzaOf hkind hpizza⟩
  · exact fun before u after s => exists_statement_eq_error s hshape hsizes hbases

/-- A use in a given column, with a number for its quantity. -/
def useIn (column : Nat) (name number : String) : SyntaxTree :=
  .node ⟨.ingredient, name, ⟨1, column, ⟨"menu.pf"⟩⟩⟩
    [.node ⟨.number, number, ⟨1, column + 2, ⟨"menu.pf"⟩⟩⟩ []]

/-- An order of a pizza with the specialty `s`, twice, and with what else is added. -/
def orderOf (uses : List SyntaxTree) : SyntaxTree :=
  .node ⟨.make, "make", ⟨1, 1, ⟨"menu.pf"⟩⟩⟩ [.node ⟨.size, "big", ⟨1, 6, ⟨"menu.pf"⟩⟩⟩
    [.node ⟨.pizza, "pizza", ⟨1, 10, ⟨"menu.pf"⟩⟩⟩
      [.node ⟨.ofClause, "of", ⟨1, 16, ⟨"menu.pf"⟩⟩⟩
        [.node ⟨.specialty, "s", ⟨1, 19, ⟨"menu.pf"⟩⟩⟩ [],
          .node ⟨.specialty, "s", ⟨1, 25, ⟨"menu.pf"⟩⟩⟩ []],
        .node ⟨.add, "add", ⟨1, 27, ⟨"menu.pf"⟩⟩⟩ uses]]]

/-- A menu with the ingredients `a` and `b` and the specialty `s`. -/
def smallMenu : Menu :=
  ⟨⟨"menu.pf"⟩, [], ⟨⟨[
    ("a", .ingredient ⟨"a", "a.png", .square 4, .square 4, ⟨1, 1, ⟨"base.pf"⟩⟩⟩),
    ("b", .ingredient ⟨"b", "b.png", .square 4, .square 4, ⟨2, 1, ⟨"base.pf"⟩⟩⟩),
    ("s", .specialty ⟨"s", .empty, ⟨3, 1, ⟨"base.pf"⟩⟩⟩)]⟩⟩⟩

section Orders

variable {uses : List SyntaxTree}

theorem isStatement_orderOf (uses : List SyntaxTree) (h : ∀ u ∈ uses, u.IsUse) :
    (orderOf uses).IsStatement := by
  refine .make fun clause hclause => ?_
  rcases List.mem_pair.mp hclause with rfl | rfl
  · refine .names ?_
    simp [SyntaxTree.kind, Tree.label]
  · exact .add h

theorem uses_orderOf : (orderOf uses).uses = uses :=
  SyntaxTree.uses_make.trans (List.append_nil uses)

theorem bases_orderOf : (orderOf uses).bases.map SyntaxTree.value = ["s", "s"] := by
  rw [orderOf, SyntaxTree.bases_make]
  rfl

theorem declared_bases_orderOf :
    ∀ b ∈ (orderOf uses).bases, ∃ p, smallMenu.symbols.get? b.value = some (.specialty p) := by
  intro b hb
  have hvalue : b.value ∈ ["s", "s"] := bases_orderOf ▸ List.mem_map_of_mem hb
  obtain heq : b.value = "s" := by simpa using hvalue
  rw [heq]
  exact ⟨_, rfl⟩

end Orders

theorem repeated_uses_smallMenu :
    (∃ s, smallMenu.symbols.specialtyOf (.node ⟨.specialty, "specialty", default⟩
        [.node ⟨.literal, "t", default⟩ [useIn 1 "a" "1", useIn 9 "b" "2", useIn 17 "a" "3"]]) =
          .ok s ∧
      s.portions.names = ["a", "b"] ∧
      (∃ p, smallMenu.symbols.Gives (useIn 17 "a" "3") p ∧ s.portions.find? "a" = some p) ∧
      ∃ session, (Compiler.ofLibrary .empty Gallery.empty.images).statement
          (fun unit _ => pure (.blank unit)) smallMenu (.node ⟨.definition, "define", default⟩
            [.node ⟨.specialty, "specialty", default⟩ [.node ⟨.literal, "t", default⟩
              [useIn 1 "a" "1", useIn 9 "b" "2", useIn 17 "a" "3"]]]) (.ofChain []) =
        .ok { smallMenu with symbols := smallMenu.symbols.append (.only (.specialty s)) } session) ∧
    (∃ pizza, smallMenu.symbols.pizzaOf
        (orderOf [useIn 31 "b" "4", useIn 40 "a" "5", useIn 49 "b" "6"]) = .ok pizza ∧
      pizza.portions.names = ["b", "a"] ∧
      (∃ p, smallMenu.symbols.Gives (useIn 31 "b" "4") p ∧ pizza.portions.find? "b" = some p) ∧
      pizza.specialties.names = ["s"] ∧
      ∃ session, (Compiler.ofLibrary .empty Gallery.empty.images).statement
          (fun unit _ => pure (.blank unit)) smallMenu
          (orderOf [useIn 31 "b" "4", useIn 40 "a" "5", useIn 49 "b" "6"]) (.ofChain []) =
        .ok { smallMenu with instructions := [⟨⟨1, 1, ⟨"menu.pf"⟩⟩, pizza⟩] } session) ∧
    ∃ e, smallMenu.symbols.Refuses (useIn 40 "b" "0") e ∧
      (Compiler.ofLibrary .empty Gallery.empty.images).statement
          (fun unit _ => pure (.blank unit)) smallMenu
          (orderOf [useIn 31 "b" "4", useIn 40 "b" "0", useIn 49 "c" "1"]) (.ofChain []) =
        .error (.semantic e) (.ofChain []) := by
  have hlaws := repeated_uses (Compiler.ofLibrary .empty Gallery.empty.images)
    (fun unit _ => pure (.blank unit)) smallMenu ⟨by decide +kernel, by decide +kernel⟩
  have huse : ∀ column name number, (useIn column name number).IsUse :=
    fun column name number => .intro .number
  have hsizes : ∀ uses, ∀ z ∈ SyntaxTree.sizes (orderOf uses),
      SyntaxTree.value z ∈ ["big", "medium", "personal"] := by
    intro uses z hz
    obtain rfl := List.mem_singleton.mp hz
    exact List.mem_cons_self
  have hgives : ∀ column name number p,
      smallMenu.symbols.portionOf (useIn column name number) = .ok p →
      ∃ p, smallMenu.symbols.Gives (useIn column name number) p :=
    fun column name number p hp => ⟨p, SymbolTable.gives_iff.mpr hp⟩
  refine ⟨?_, ?_, ?_⟩
  · obtain ⟨s, hs, hnames, hlast, hadds⟩ := hlaws.1 ⟨.specialty, "specialty", default⟩
      ⟨.literal, "t", default⟩ [useIn 1 "a" "1", useIn 9 "b" "2", useIn 17 "a" "3"] <| by
        simp only [List.forall_mem_cons]
        exact ⟨hgives _ _ _ _ rfl, hgives _ _ _ _ rfl, hgives _ _ _ _ rfl, by simp⟩
    exact ⟨s, hs, hnames, hlast _ ⟨[useIn 1 "a" "1", useIn 9 "b" "2"], [], rfl, by simp⟩,
      _, hadds _ _ rfl rfl (by decide +kernel)⟩
  · obtain ⟨hpizza, -⟩ := hlaws.2 _ (isStatement_orderOf
      [useIn 31 "b" "4", useIn 40 "a" "5", useIn 49 "b" "6"] (by simp [huse]))
      (hsizes _) declared_bases_orderOf
    rw [uses_orderOf, bases_orderOf] at hpizza
    obtain ⟨pizza, h, hnames, hfirst, hnames', -, hadds⟩ := hpizza rfl <| by
      simp only [List.forall_mem_cons]
      exact ⟨hgives _ _ _ _ rfl, hgives _ _ _ _ rfl, hgives _ _ _ _ rfl, by simp⟩
    exact ⟨pizza, h, hnames, hfirst (useIn 31 "b" "4") ⟨[], _, rfl, by simp⟩, hnames', _, hadds _⟩
  · obtain ⟨-, hfails⟩ := hlaws.2 _ (isStatement_orderOf
      [useIn 31 "b" "4", useIn 40 "b" "0", useIn 49 "c" "1"] (by simp [huse]))
      (hsizes _) declared_bases_orderOf
    refine hfails [useIn 31 "b" "4"] _ [useIn 49 "c" "1"] _ uses_orderOf ?_ ?_
    · exact List.forall_mem_singleton.mpr (hgives _ _ _ _ rfl)
    · rintro ⟨p, hp⟩
      cases SymbolTable.gives_iff.mp hp

end PizzaLang
