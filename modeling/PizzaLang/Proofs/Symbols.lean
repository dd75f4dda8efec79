import Mathlib.Data.List.Nodup
import PizzaLang.Recipe.Symbols

/-!
# Laws of symbol tables

A symbol table is a list of entries, and this file says what its operations do to that
list: an insertion puts one entry at the end, and a merge without a clash puts the entries
of one table behind those of the other. Neither ever touches an entry that is there, which
is `PizzaLang.SymbolTable.Within`: whatever a name was bound to before, it is bound to
afterwards. Everything that a compilation reads off a table is kept by that relation.

* `PizzaLang.SymbolTable.Keyed`: no name twice, and each entry under its own name;
* `PizzaLang.SymbolTable.insert_eq_ok_iff`, `PizzaLang.SymbolTable.merge_eq_none_iff`: when
  insertion and merge succeed, and what they give;
* `PizzaLang.SymbolTable.within_append_right`: the table that is merged in keeps its
  meaning because nothing in front of it has one of its names.
-/

namespace PizzaLang

/-! ### Listings -/

namespace Listing

variable {α : Type} {l : Listing α} {name other : String} {value : α}

theorem contains_iff : l.contains name = true ↔ name ∈ l.names := by
  simp [contains]

theorem mem_names : name ∈ l.names ↔ ∃ v, (name, v) ∈ l.entries := by
  simp [names]

theorem find?_eq_none_iff : l.find? name = none ↔ name ∉ l.names := by
  rw [find?, List.lookup_eq_none_iff, mem_names]
  constructor
  · rintro h ⟨v, hv⟩
    simpa using h _ hv
  · rintro h ⟨n, v⟩ hv
    refine bne_iff_ne.mpr fun hn => h ⟨v, ?_⟩
    rwa [hn]

theorem mem_of_find?_eq_some (h : l.find? name = some value) : (name, value) ∈ l.entries := by
  obtain ⟨before, after, heq, -⟩ := List.lookup_eq_some_iff.mp h
  rw [heq]
  simp

/-- Where no name is listed twice, what is listed under a name is found under it. -/
theorem find?_of_mem (hnodup : l.names.Nodup) (h : (name, value) ∈ l.entries) :
    l.find? name = some value := by
  obtain ⟨before, after, hsplit⟩ := List.append_of_mem h
  refine List.lookup_eq_some_iff.mpr ⟨before, after, hsplit, fun e he => bne_iff_ne.mpr ?_⟩
  rintro rfl
  rw [names, hsplit, List.map_append, List.map_cons] at hnodup
  exact (List.nodup_append.mp hnodup).2.2 e.1 (List.mem_map_of_mem he) e.1 List.mem_cons_self rfl

@[simp] theorem names_empty : (empty : Listing α).names = [] := rfl

@[simp] theorem entries_empty : (empty : Listing α).entries = [] := rfl

@[simp] theorem names_push : (l.push name value).names = l.names ++ [name] := by
  simp [names, push]

/-- A value that is set leaves the names alone, or adds its own at the end. -/
theorem names_set :
    (l.set name value).names = if name ∈ l.names then l.names else l.names ++ [name] := by
  rw [set]
  by_cases h : name ∈ l.names
  · rw [if_pos (contains_iff.mpr h), if_pos h, names, names, List.map_map]
    refine List.map_congr_left fun e _ => ?_
    by_cases he : e.1 = name
    · simp [he]
    · simp [he]
  · rw [if_neg (fun hc => h (contains_iff.mp hc)), if_neg h, names_push]

theorem names_keep :
    (l.keep name value).names = if name ∈ l.names then l.names else l.names ++ [name] := by
  rw [keep]
  by_cases h : name ∈ l.names
  · rw [if_pos (contains_iff.mpr h), if_pos h]
  · rw [if_neg (fun hc => h (contains_iff.mp hc)), if_neg h, names_push]

theorem nodup_names_set (h : l.names.Nodup) : (l.set name value).names.Nodup := by
  rw [names_set]
  split
  · exact h
  · next hn => exact h.append (List.nodup_singleton _) (by simpa using hn)

theorem nodup_names_keep (h : l.names.Nodup) : (l.keep name value).names.Nodup := by
  rw [names_keep]
  split
  · exact h
  · next hn => exact h.append (List.nodup_singleton _) (by simpa using hn)

/-- What is listed after a value has been set is that value, or was listed before. -/
theorem mem_entries_set {e : String × α} (h : e ∈ (l.set name value).entries) :
    e = (name, value) ∨ e ∈ l.entries := by
  rw [set] at h
  split at h
  · obtain ⟨d, hd, rfl⟩ := List.mem_map.mp h
    split
    · exact Or.inl rfl
    · exact Or.inr hd
  · rw [push, List.mem_append, List.mem_singleton] at h
    exact h.symm

theorem mem_entries_keep {e : String × α} (h : e ∈ (l.keep name value).entries) :
    e = (name, value) ∨ e ∈ l.entries := by
  rw [keep] at h
  split at h
  · exact Or.inr h
  · rw [push, List.mem_append, List.mem_singleton] at h
    exact h.symm

end Listing

/-! ### Symbol tables -/

namespace SymbolTable

variable {t t' other : SymbolTable} {s : Symbol} {name : String}

/-- **No name twice, and each declaration under its own name.** -/
structure Keyed (t : SymbolTable) : Prop where
  nodup : t.names.Nodup
  keyed : ∀ e ∈ t.symbols.entries, e.2.name = e.1

/-- The entries of one table and then those of another. -/
def append (t other : SymbolTable) : SymbolTable :=
  ⟨⟨t.symbols.entries ++ other.symbols.entries⟩⟩

/-- **What is declared stays declared**: every name of the first table is bound in the
second one, and to the same declaration. -/
def Within (t t' : SymbolTable) : Prop := ∀ name s, t.get? name = some s → t'.get? name = some s

theorem length_names : t.names.length = t.size := List.length_map _

theorem get?_eq_none_iff : t.get? name = none ↔ name ∉ t.names := Listing.find?_eq_none_iff

theorem mem_names_of_get? (h : t.get? name = some s) : name ∈ t.names := by
  by_contra hn
  rw [get?_eq_none_iff.mpr hn] at h
  simp at h

theorem mem_entries_of_get? (h : t.get? name = some s) : (name, s) ∈ t.symbols.entries :=
  Listing.mem_of_find?_eq_some h

/-- A declaration that is found has the name it is found under. -/
theorem Keyed.name_of_get? (ht : t.Keyed) (h : t.get? name = some s) : s.name = name :=
  ht.keyed _ (mem_entries_of_get? h)

theorem specialty?_eq_some_iff {p : Specialty} :
    t.specialty? name = some p ↔ t.get? name = some (.specialty p) := by
  rw [specialty?]
  rcases t.get? name with _ | i | q <;> simp [Symbol.specialty?]

@[simp] theorem names_empty : empty.names = [] := rfl

@[simp] theorem get?_empty : empty.get? name = none := rfl

@[simp] theorem names_append : (t.append other).names = t.names ++ other.names := by
  simp [names, append, Listing.names]

@[simp] theorem toList_append : (t.append other).toList = t.toList ++ other.toList := by
  simp [toList, append, Listing.values]

@[simp] theorem append_empty : t.append empty = t := by
  simp [append, empty, Listing.empty]

@[simp] theorem empty_append : empty.append t = t := by
  simp [append, empty, Listing.empty]

theorem append_assoc {a b c : SymbolTable} : (a.append b).append c = a.append (b.append c) := by
  simp [append]

theorem get?_append : (t.append other).get? name = (t.get? name).or (other.get? name) :=
  List.lookup_append

theorem keyed_empty : empty.Keyed := ⟨List.nodup_nil, by simp [empty]⟩

/-! ### Insertion -/

/-- The table with one declaration only. -/
def only (s : Symbol) : SymbolTable := ⟨⟨[(s.name, s)]⟩⟩

@[simp] theorem names_only : (only s).names = [s.name] := rfl

theorem keyed_only : (only s).Keyed := ⟨List.nodup_singleton _, by simp [only]⟩

/-- **Insertion** succeeds exactly on a name that is free, and puts its entry at the end. -/
theorem insert_eq_ok_iff : t.insert s = .ok t' ↔ s.name ∉ t.names ∧ t' = t.append (only s) := by
  rw [insert, ← get?_eq_none_iff]
  cases h : t.get? s.name with
  | none =>
    simp only [Except.ok.injEq, true_and]
    exact eq_comm
  | some bound => simp

/-! ### Merging -/

/-- Two keyed tables without a common name make up a keyed table. -/
theorem Keyed.append (ht : t.Keyed) (ho : other.Keyed) (hdis : ∀ n ∈ other.names, n ∉ t.names) :
    (t.append other).Keyed := by
  refine ⟨?_, fun e he => ?_⟩
  · rw [names_append]
    exact ht.nodup.append ho.nodup fun n hn hn' => hdis n hn' hn
  · rcases List.mem_append.mp he with he | he
    · exact ht.keyed e he
    · exact ho.keyed e he

/-- Declaring symbols one after the other works out exactly if their names differ from each
other and from those that are there. -/
theorem insertAll_eq_none_iff {ss : List Symbol} :
    t.insertAll ss = (t', none) ↔
      (ss.map Symbol.name).Nodup ∧ (∀ s ∈ ss, s.name ∉ t.names) ∧
        t' = t.append ⟨⟨ss.map fun s => (s.name, s)⟩⟩ := by
  induction ss generalizing t with
  | nil =>
    simp only [insertAll, Prod.mk.injEq, and_true, List.map_nil, List.nodup_nil, List.not_mem_nil,
      false_implies, implies_true, true_and]
    rw [show t.append ⟨⟨[]⟩⟩ = t from append_empty]
    exact eq_comm
  | cons s ss ih =>
    rw [insertAll]
    cases h : t.insert s with
    | error clash =>
      have hname : s.name ∈ t.names := by
        by_contra hn
        rw [insert_eq_ok_iff.mpr ⟨hn, rfl⟩] at h
        simp at h
      simp [hname]
    | ok u =>
      obtain ⟨hfree, rfl⟩ := insert_eq_ok_iff.mp h
      simp only [ih, names_append, names_only, List.mem_append, List.mem_singleton, not_or,
        List.map_cons, List.nodup_cons, List.mem_map, not_exists, not_and, List.forall_mem_cons,
        append_assoc]
      rw [show (only s).append ⟨⟨ss.map fun s => (s.name, s)⟩⟩ =
        ⟨⟨(s.name, s) :: ss.map fun s => (s.name, s)⟩⟩ from rfl]
      constructor
      · rintro ⟨hnodup, hss, heq⟩
        exact ⟨⟨fun r hr => (hss r hr).2, hnodup⟩, ⟨hfree, fun r hr => (hss r hr).1⟩, heq⟩
      · rintro ⟨⟨hne, hnodup⟩, ⟨-, hss⟩, heq⟩
        exact ⟨hnodup, fun r hr => ⟨hss r hr, hne r hr⟩, heq⟩

theorem Keyed.map_toList (ho : other.Keyed) :
    (other.toList.map fun s => (s.name, s)) = other.symbols.entries := by
  rw [toList, Listing.values, List.map_map]
  refine (List.map_congr_left fun e he => ?_).trans (List.map_id _)
  simp only [Function.comp_apply, id_eq]
  rw [ho.keyed e he]

/-- **A merge** goes without a clash exactly if no name is bound in both tables, and then
puts the entries of the second table behind those of the first. -/
theorem merge_eq_none_iff (ho : other.Keyed) :
    t.merge other = (t', none) ↔ (∀ n ∈ other.names, n ∉ t.names) ∧ t' = t.append other := by
  have hnames : other.toList.map Symbol.name = other.names := by
    have h := congrArg (List.map Prod.fst) ho.map_toList
    rwa [List.map_map] at h
  have hnodup : (other.toList.map Symbol.name).Nodup := hnames ▸ ho.nodup
  rw [merge, insertAll_eq_none_iff, ho.map_toList, ← hnames]
  simp only [List.forall_mem_map]
  exact ⟨fun h => ⟨h.2.1, h.2.2⟩, fun h => ⟨hnodup, h.1, h.2⟩⟩

/-! ### What is declared stays declared -/

theorem within_append_left : t.Within (t.append other) := by
  intro name s h
  rw [get?_append, h]
  rfl

/-- Behind entries that have none of its names, a table keeps its meaning. -/
theorem within_append_right (hdis : ∀ n ∈ other.names, n ∉ t.names) :
    other.Within (t.append other) := by
  intro name s h
  rw [get?_append, get?_eq_none_iff.mpr (hdis name (mem_names_of_get? h)), h]
  rfl

end SymbolTable

end PizzaLang
