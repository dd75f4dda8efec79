import Mathlib.Data.List.Induction
import PizzaLang.Proofs.Equality

/-!
# Symbol tables and their histories

A symbol table has no past: it is a list of entries, and nothing in it says how it came about. What
is said here holds of a table for the way in which tables are made. They start empty, are copied,
get declarations one by one and are merged into each other, in any order and any number of them
(`PizzaLang.TableStep`), and some of these steps are refused, or stop halfway.

* What a step can do to a table that is there is said once: it puts entries at its end
  (`PizzaLang.TableStep.exists_insertAll`). So all tables keep what they have, in its order, through
  all steps (`PizzaLang.exists_prefix_of_history`).
* A merge stops at the first name of the second table that is bound in the first one
  (`PizzaLang.SymbolTable.Keyed.merge_cases`).
* Merges without a clash put lists of entries behind each other, and whether there is a clash is a
  matter of the names. So it does not matter in which order three tables are merged
  (`PizzaLang.SymbolTable.merged_assoc`), nor which of two is merged into the other, as far as
  tables are equal without regard to their order (`PizzaLang.SymbolTable.merged_comm`).

The result is `PizzaLang.symbolTable_laws`.
-/

namespace PizzaLang

/-- **A declaration as programs make it**: the portions of a specialty are listed under different
names. -/
def Symbol.Proper (s : Symbol) : Prop := ∀ p, s = .specialty p → p.portions.names.Nodup

theorem Symbol.Proper.same_self {s : Symbol} (h : s.Proper) : s.same s = true :=
  Symbol.same_of_reposition Position.apart_id (fun p hp => Listing.functional_of_nodup (h p hp)) rfl

namespace SymbolTable

variable {t t' a b c other : SymbolTable} {ss : List Symbol} {clash : Clash}

/-! ### Declarations one after the other -/

/-- **A clash stops everything**: the declarations before it are made, and none after it. -/
theorem exists_of_insertAll_clash (h : t.insertAll ss = (t', some clash)) :
    ∃ before s after bound, ss = before ++ s :: after ∧ t.insertAll before = (t', none) ∧
      t'.get? s.name = some bound ∧ clash = ⟨s.name, s.declaredAt, bound.declaredAt⟩ := by
  induction ss generalizing t with
  | nil => cases h
  | cons s ss ih =>
    rw [insertAll] at h
    cases hs : t.insert s with
    | ok u =>
      rw [hs] at h
      obtain ⟨before, r, after, bound, rfl, hbefore, hbound, hclash⟩ := ih h
      refine ⟨s :: before, r, after, bound, rfl, ?_, hbound, hclash⟩
      rw [insertAll, hs]
      exact hbefore
    | error e =>
      rw [hs] at h
      obtain ⟨rfl, he⟩ := Prod.mk.inj h
      obtain rfl := Option.some.inj he
      rw [insert] at hs
      split at hs
      · next bound hbound =>
        exact ⟨[], s, ss, bound, rfl, rfl, hbound, (Except.error.inj hs).symm⟩
      · cases hs

/-- Declarations are put behind the entries that are there, whether all of them are made or not. -/
theorem exists_append_of_insertAll (t : SymbolTable) (ss : List Symbol) :
    ∃ made, made <+: ss ∧ (made.map Symbol.name).Nodup ∧ (∀ s ∈ made, s.name ∉ t.names) ∧
      (t.insertAll ss).1 = t.append ⟨⟨made.map fun s => (s.name, s)⟩⟩ := by
  rcases h : t.insertAll ss with ⟨t', _ | clash⟩
  · obtain ⟨hnodup, hfree, rfl⟩ := insertAll_eq_none_iff.mp h
    exact ⟨ss, List.prefix_refl ss, hnodup, hfree, rfl⟩
  · obtain ⟨before, s, after, bound, rfl, hbefore, -, -⟩ := exists_of_insertAll_clash h
    obtain ⟨hnodup, hfree, rfl⟩ := insertAll_eq_none_iff.mp hbefore
    exact ⟨before, List.prefix_append _ _, hnodup, hfree, rfl⟩

theorem Keyed.insertAll (ht : t.Keyed) (ss : List Symbol) : (t.insertAll ss).1.Keyed := by
  obtain ⟨made, -, hnodup, hfree, heq⟩ := exists_append_of_insertAll t ss
  rw [heq]
  refine ht.append ⟨?_, fun e he => ?_⟩ fun n hn => ?_
  · rw [names, Listing.names, List.map_map]
    exact hnodup
  · obtain ⟨s, -, rfl⟩ := List.mem_map.mp he
    rfl
  · obtain ⟨_, he, rfl⟩ := List.mem_map.mp hn
    obtain ⟨s, hs, rfl⟩ := List.mem_map.mp he
    exact hfree s hs

/-! ### Merges -/

theorem Keyed.of_append_left (h : (t.append other).Keyed) : t.Keyed := by
  refine ⟨?_, fun e he => h.keyed e (List.mem_append_left _ he)⟩
  have hnodup := h.nodup
  rw [names_append] at hnodup
  exact hnodup.of_append_left

/-- **What a merge does.** Without a common name, it puts the entries of the second table behind
those of the first one. Otherwise it does so with the entries up to the first name that is bound in
the first table, and reports that name with the two declarations. -/
theorem Keyed.merge_cases (hb : b.Keyed) (a : SymbolTable) :
    ((∀ n ∈ b.names, n ∉ a.names) ∧ a.merge b = (a.append b, none)) ∨
    ∃ before n s after r, b.symbols.entries = before ++ (n, s) :: after ∧
      (∀ e ∈ before, e.1 ∉ a.names) ∧ a.get? n = some r ∧
      a.merge b = (a.append ⟨⟨before⟩⟩, some ⟨n, s.declaredAt, r.declaredAt⟩) := by
  rcases h : a.merge b with ⟨t, _ | clash⟩
  · obtain ⟨hfree, rfl⟩ := (merge_eq_none_iff hb).mp h
    exact Or.inl ⟨hfree, rfl⟩
  · obtain ⟨front, s, back, r, hsplit, hfront, hr, rfl⟩ := exists_of_insertAll_clash h
    -- the declarations before the clash are those of a table that is merged without one
    obtain ⟨before, behind, hentries, rfl, hbehind⟩ := List.map_eq_append_iff.mp hsplit
    obtain ⟨⟨n, s'⟩, after, rfl, rfl, -⟩ := List.map_eq_cons_iff.mp hbehind
    have hkeyed : ((⟨⟨before⟩⟩ : SymbolTable).append ⟨⟨(n, s') :: after⟩⟩).Keyed := by
      rw [SymbolTable.append, ← hentries]
      exact hb
    obtain ⟨hfree, rfl⟩ := (merge_eq_none_iff hkeyed.of_append_left).mp hfront
    have hname : s'.name = n := hb.keyed (n, s') (by simp [hentries])
    refine Or.inr ⟨before, n, s', after, r, hentries, ?_, ?_, by rw [hname]⟩
    · exact fun e he => hfree e.1 (List.mem_map_of_mem he)
    · -- the name is not among those before it, so it is bound in the first table
      have hother : SymbolTable.get? ⟨⟨before⟩⟩ n = none := by
        rw [get?_eq_none_iff]
        intro hn
        have hnodup := hkeyed.nodup
        rw [names_append] at hnodup
        exact hnodup.disjoint hn List.mem_cons_self
      rw [hname, get?_append, hother, Option.or_none] at hr
      exact hr

/-- The table that comes out of a merge, if there is no clash. -/
def merged (a b : SymbolTable) : Option SymbolTable :=
  match a.merge b with
  | (t, none) => some t
  | (_, some _) => none

theorem Keyed.merged_eq_some_iff (hb : b.Keyed) :
    a.merged b = some t ↔ (∀ n ∈ b.names, n ∉ a.names) ∧ t = a.append b := by
  rw [← merge_eq_none_iff hb, merged]
  rcases a.merge b with ⟨t, _ | clash⟩ <;> simp

/-- **Merging is associative**, and so is the question whether it succeeds. -/
theorem merged_assoc (hb : b.Keyed) (hc : c.Keyed) :
    (b.merged c).bind a.merged = (a.merged b).bind fun ab => ab.merged c := by
  refine Option.ext fun r => ?_
  simp only [Option.bind_eq_some_iff]
  constructor
  · rintro ⟨bc, hbc, hr⟩
    obtain ⟨hfree, rfl⟩ := hc.merged_eq_some_iff.mp hbc
    obtain ⟨hfree', rfl⟩ := (hb.append hc hfree).merged_eq_some_iff.mp hr
    rw [names_append, List.forall_mem_append] at hfree'
    refine ⟨_, hb.merged_eq_some_iff.mpr ⟨hfree'.1, rfl⟩, hc.merged_eq_some_iff.mpr ⟨?_, ?_⟩⟩
    · intro n hn
      rw [names_append, List.mem_append, not_or]
      exact ⟨hfree'.2 n hn, hfree n hn⟩
    · exact append_assoc.symm
  · rintro ⟨ab, hab, hr⟩
    obtain ⟨hfree, rfl⟩ := hb.merged_eq_some_iff.mp hab
    obtain ⟨hfree', rfl⟩ := hc.merged_eq_some_iff.mp hr
    simp only [names_append, List.mem_append, not_or] at hfree'
    have hbc : ∀ n ∈ c.names, n ∉ b.names := fun n hn => (hfree' n hn).2
    refine ⟨_, hc.merged_eq_some_iff.mpr ⟨hbc, rfl⟩, ?_⟩
    refine (hb.append hc hbc).merged_eq_some_iff.mpr ⟨?_, append_assoc⟩
    rw [names_append, List.forall_mem_append]
    exact ⟨hfree, fun n hn => (hfree' n hn).1⟩

/-- **Merging is commutative**, up to the order of the table. -/
theorem merged_comm (ha : a.Keyed) (hb : b.Keyed) (hproper : ∀ s ∈ a.toList ++ b.toList, s.Proper)
    (h : a.merged b = some t) : ∃ t', b.merged a = some t' ∧ t'.same t = true := by
  obtain ⟨hfree, rfl⟩ := hb.merged_eq_some_iff.mp h
  have hfree' : ∀ n ∈ a.names, n ∉ b.names := fun n hn hn' => hfree n hn' hn
  refine ⟨_, ha.merged_eq_some_iff.mpr ⟨hfree', rfl⟩, ?_⟩
  refine (Listing.functional_of_nodup (ha.append hb hfree).nodup).same_of_perm
    List.perm_append_comm fun e he => (hproper _ ?_).same_self
  rw [← toList_append]
  exact List.mem_map_of_mem he

end SymbolTable

/-! ### Histories -/

/-- **A step in the history of some tables**, which are numbered in the order in which they come up.
Steps that name a table that is not there do nothing. -/
inductive TableStep
  /-- There is a new table, without symbols. -/
  | create
  /-- There is a new table, with all that another one has. -/
  | copy (table : Nat)
  /-- A symbol is declared, if its name is free. -/
  | insert (table : Nat) (s : Symbol) (proper : s.Proper)
  /-- A table is merged into another one, up to the first clash. -/
  | merge (table other : Nat)

namespace TableStep

/-- The tables after a step. -/
def apply (tables : List SymbolTable) : TableStep → List SymbolTable
  | create => tables ++ [.empty]
  | copy table => tables ++ tables[table]?.toList
  | insert table s _ => tables.modify table fun t => (t.insert s).toOption.getD t
  | merge table other =>
    tables.modify table fun t => tables[other]?.elim t fun u => (t.merge u).1

variable {tables : List SymbolTable} {t : SymbolTable} {k : Nat}

/-- **What a step does to a table that is there**: it declares some symbols, as far as it gets. -/
theorem exists_insertAll (step : TableStep) (h : tables[k]? = some t) :
    ∃ ss, (step.apply tables)[k]? = some (t.insertAll ss).1 ∧
      ∀ s ∈ ss, s.Proper ∨ ∃ u ∈ tables, s ∈ u.toList := by
  have hlt : k < tables.length := (List.getElem?_eq_some_iff.mp h).1
  have hidle : ∃ ss, some t = some (t.insertAll ss).1 ∧
      ∀ s ∈ ss, s.Proper ∨ ∃ u ∈ tables, s ∈ u.toList := ⟨[], rfl, by simp⟩
  cases step with
  | create => rwa [apply, List.getElem?_append_left hlt, h]
  | copy table => rwa [apply, List.getElem?_append_left hlt, h]
  | insert table s proper =>
    rw [apply, List.getElem?_modify, h, Option.map_eq_map, Option.map_some]
    by_cases hk : table = k
    · refine ⟨[s], ?_, fun r hr => Or.inl (List.mem_singleton.mp hr ▸ proper)⟩
      rw [if_pos hk, SymbolTable.insertAll]
      cases t.insert s <;> rfl
    · rwa [if_neg hk]
  | merge table other =>
    rw [apply, List.getElem?_modify, h, Option.map_eq_map, Option.map_some]
    by_cases hk : table = k
    · rw [if_pos hk]
      cases hother : tables[other]? with
      | none => exact hidle
      | some u =>
        exact ⟨u.toList, rfl, fun s hs => Or.inr ⟨u, List.mem_of_getElem? hother, hs⟩⟩
    · rwa [if_neg hk]

/-- A table that was not there before is empty, or like one that was. -/
theorem eq_empty_or_mem (step : TableStep) (h : tables[k]? = none)
    (h' : (step.apply tables)[k]? = some t) : t = .empty ∨ t ∈ tables := by
  have hle : tables.length ≤ k := List.getElem?_eq_none_iff.mp h
  cases step with
  | create =>
    rw [apply, List.getElem?_append_right hle] at h'
    exact Or.inl (List.mem_singleton.mp (List.mem_of_getElem? h'))
  | copy table =>
    rw [apply, List.getElem?_append_right hle] at h'
    exact Or.inr (List.mem_of_getElem? (Option.mem_toList.mp (List.mem_of_getElem? h')))
  | insert table s proper =>
    rw [apply, List.getElem?_modify, h] at h'
    simp at h'
  | merge table other =>
    rw [apply, List.getElem?_modify, h] at h'
    simp at h'

end TableStep

/-- **The tables after a history**, which starts without any. -/
def tablesAfter (steps : List TableStep) : List SymbolTable := steps.foldl TableStep.apply []

theorem tablesAfter_concat (steps : List TableStep) (step : TableStep) :
    tablesAfter (steps ++ [step]) = step.apply (tablesAfter steps) :=
  List.foldl_append

section History

variable {steps : List TableStep} {t : SymbolTable} {k : Nat}

/-- **All tables of a history are keyed**, and their declarations are proper. -/
theorem keyed_of_history (h : t ∈ tablesAfter steps) : t.Keyed ∧ ∀ s ∈ t.toList, s.Proper := by
  induction steps using List.reverseRecOn generalizing t with
  | nil => cases h
  | append_singleton steps step ih =>
    rw [tablesAfter_concat] at h
    obtain ⟨k, hk⟩ := List.mem_iff_getElem?.mp h
    cases hbefore : (tablesAfter steps)[k]? with
    | none =>
      rcases step.eq_empty_or_mem hbefore hk with rfl | hmem
      · refine ⟨SymbolTable.keyed_empty, ?_⟩
        simp [SymbolTable.empty, SymbolTable.toList, Listing.values]
      · exact ih hmem
    | some u =>
      obtain ⟨ss, hss, hproper⟩ := step.exists_insertAll hbefore
      obtain rfl := Option.some.inj (hk.symm.trans hss)
      obtain ⟨hkeyed, hu⟩ := ih (List.mem_of_getElem? hbefore)
      refine ⟨hkeyed.insertAll ss, fun s hs => ?_⟩
      obtain ⟨made, hmade, -, -, heq⟩ := SymbolTable.exists_append_of_insertAll u ss
      rw [heq, SymbolTable.toList_append, List.mem_append] at hs
      rcases hs with hs | hs
      · exact hu s hs
      · have hs' : s ∈ made := by simpa [SymbolTable.toList, Listing.values] using hs
        rcases hproper s (hmade.subset hs') with hs'' | ⟨v, hv, hs''⟩
        · exact hs''
        · exact (ih hv).2 s hs''

/-- **No step takes anything away**: what a table has, it has in the same order ever after, in front
of all that it gets. -/
theorem exists_prefix_of_history (h : (tablesAfter steps)[k]? = some t) (more : List TableStep) :
    ∃ t' : SymbolTable, (tablesAfter (steps ++ more))[k]? = some t' ∧
      t.symbols.entries <+: t'.symbols.entries := by
  induction more using List.reverseRecOn with
  | nil =>
    rw [List.append_nil]
    exact ⟨t, h, List.prefix_refl _⟩
  | append_singleton more step ih =>
    obtain ⟨u, hu, hprefix⟩ := ih
    obtain ⟨ss, hss, -⟩ := step.exists_insertAll hu
    obtain ⟨made, -, -, -, heq⟩ := SymbolTable.exists_append_of_insertAll u ss
    rw [← List.append_assoc, tablesAfter_concat]
    refine ⟨_, hss, hprefix.trans ?_⟩
    rw [heq]
    exact List.prefix_append _ _

/-- A name is bound in a table after a history. -/
def BoundAfter (steps : List TableStep) (k : Nat) (name : String) : Prop :=
  ∃ t, (tablesAfter steps)[k]? = some t ∧ name ∈ t.names

/-- **Names are listed in the order in which they were first bound**: at no time was one of them
bound without those that are listed before it. -/
theorem pairwise_of_history (h : (tablesAfter steps)[k]? = some t) :
    t.names.Pairwise fun n m =>
      ∀ earlier, earlier <+: steps → BoundAfter earlier k m → BoundAfter earlier k n := by
  rw [List.pairwise_iff_forall_sublist]
  rintro n m hsub earlier ⟨more, rfl⟩ ⟨u, hu, hm⟩
  refine ⟨u, hu, ?_⟩
  obtain ⟨t', ht', rest, hrest⟩ := exists_prefix_of_history hu more
  obtain rfl := Option.some.inj (h.symm.trans ht')
  have hnames : t.names = u.names ++ rest.map (·.1) := by
    rw [SymbolTable.names, Listing.names, ← hrest, List.map_append]
    rfl
  have hnodup := (keyed_of_history (List.mem_of_getElem? h)).1.nodup
  -- a name that is listed later than `m` would be among those that came after that time
  rw [hnames] at hsub hnodup
  obtain ⟨l₁, l₂, hsplit, hl₁, hl₂⟩ := List.sublist_append_iff.mp hsub
  rcases l₁ with _ | ⟨n', l₁⟩
  · rw [List.nil_append] at hsplit
    have hm' : m ∈ rest.map (·.1) := hl₂.subset (hsplit ▸ List.mem_cons_of_mem _ List.mem_cons_self)
    exact absurd hm' (hnodup.disjoint hm)
  · obtain ⟨rfl, -⟩ := List.cons.inj hsplit
    exact hl₁.subset List.mem_cons_self

end History

/-- **The laws of symbol tables**, after every history.

* No table has a name twice, each declaration stands under its own name, and names are listed in the
  order in which they were first bound.
* Every step, also one that is refused or stops halfway, leaves the entries of every table as they
  are, in front of those that it adds.
* A merge succeeds exactly if no name is bound in both tables, and puts the entries of the second
  behind those of the first. Otherwise it reports the first name of the second table that is bound
  in the first one, with both positions, and has merged what comes before that name.
* Merging is commutative up to equality of tables, and associative. -/
theorem symbolTable_laws (steps : List TableStep) :
    (∀ (k : Nat) (t : SymbolTable), (tablesAfter steps)[k]? = some t →
      t.names.Nodup ∧ (∀ e ∈ t.symbols.entries, e.2.name = e.1) ∧
      (t.names.Pairwise fun n m =>
        ∀ earlier, earlier <+: steps → BoundAfter earlier k m → BoundAfter earlier k n) ∧
      ∀ step, ∃ t' : SymbolTable, (tablesAfter (steps ++ [step]))[k]? = some t' ∧
        t.symbols.entries <+: t'.symbols.entries) ∧
    ∀ a ∈ tablesAfter steps, ∀ b ∈ tablesAfter steps,
      ((a.merge b).2 = none ↔ ∀ n, ¬(n ∈ a.names ∧ n ∈ b.names)) ∧
      ((a.merge b).2 = none →
        (a.merge b).1.symbols.entries = a.symbols.entries ++ b.symbols.entries) ∧
      ((a.merge b).2 ≠ none → ∃ before n s after r,
        b.symbols.entries = before ++ (n, s) :: after ∧ (∀ e ∈ before, e.1 ∉ a.names) ∧
        a.get? n = some r ∧ (a.merge b).2 = some ⟨n, s.declaredAt, r.declaredAt⟩ ∧
        (a.merge b).1.symbols.entries = a.symbols.entries ++ before) ∧
      (∀ t, a.merged b = some t → ∃ t', b.merged a = some t' ∧ t'.same t = true) ∧
      ∀ c ∈ tablesAfter steps,
        (b.merged c).bind a.merged = (a.merged b).bind fun ab => ab.merged c := by
  refine ⟨fun k t ht => ?_, fun a ha b hb => ?_⟩
  · obtain ⟨hkeyed, -⟩ := keyed_of_history (List.mem_of_getElem? ht)
    exact ⟨hkeyed.nodup, hkeyed.keyed, pairwise_of_history ht,
      fun step => exists_prefix_of_history ht [step]⟩
  · obtain ⟨hakeyed, haproper⟩ := keyed_of_history ha
    obtain ⟨hbkeyed, hbproper⟩ := keyed_of_history hb
    have hproper : ∀ s ∈ a.toList ++ b.toList, s.Proper :=
      List.forall_mem_append.mpr ⟨haproper, hbproper⟩
    refine ⟨?_, ?_, ?_, fun t => SymbolTable.merged_comm hakeyed hbkeyed hproper, fun c hc =>
      SymbolTable.merged_assoc hbkeyed (keyed_of_history hc).1⟩
    all_goals
      rcases hbkeyed.merge_cases a with
        ⟨hfree, hmerge⟩ | ⟨before, n, s, after, r, hsplit, hfree, hr, hmerge⟩ <;> rw [hmerge]
    · exact iff_of_true rfl fun n hn => hfree n hn.2 hn.1
    · refine iff_of_false (by simp) fun h => h n ⟨SymbolTable.mem_names_of_get? hr, ?_⟩
      exact Listing.mem_names.mpr ⟨s, by simp [hsplit]⟩
    · exact fun _ => rfl
    · exact fun h => absurd h (by simp)
    · exact fun h => absurd rfl h
    · exact fun _ => ⟨before, n, s, after, r, hsplit, hfree, hr, rfl, rfl⟩

/-- An ingredient that is declared at the start of a line. -/
def declaredOn (line : Nat) (name : String) : Symbol :=
  .ingredient ⟨name, "a.png", .square 4, .square 4, ⟨line, 1, ⟨"menu.pf"⟩⟩⟩

theorem proper_declaredOn (line : Nat) (name : String) : (declaredOn line name).Proper := by
  intro p hp
  cases hp

/-- A history in which a declaration is refused and a merge stops halfway. -/
def halfMerge : List TableStep :=
  [.create, .insert 0 (declaredOn 1 "egg") (proper_declaredOn 1 "egg"), .copy 0, .create,
    .insert 2 (declaredOn 2 "ham") (proper_declaredOn 2 "ham"),
    .insert 2 (declaredOn 3 "egg") (proper_declaredOn 3 "egg"),
    .insert 2 (declaredOn 4 "ham") (proper_declaredOn 4 "ham"),
    .insert 2 (declaredOn 5 "oil") (proper_declaredOn 5 "oil"),
    .merge 0 2, .create, .insert 3 (declaredOn 6 "oil") (proper_declaredOn 6 "oil")]

theorem symbolTable_laws_halfMerge :
    (tablesAfter halfMerge).map SymbolTable.names =
      [["egg", "ham"], ["egg"], ["ham", "egg", "oil"], ["oil"]] ∧
    ∃ a b d, [a, b, d] = (tablesAfter halfMerge).drop 1 ∧
      (∃ before n s after r, b.symbols.entries = before ++ (n, s) :: after ∧
        (∀ e ∈ before, e.1 ∉ a.names) ∧ a.get? n = some r ∧
        (a.merge b).2 = some ⟨n, s.declaredAt, r.declaredAt⟩ ∧
        (a.merge b).1.symbols.entries = a.symbols.entries ++ before) ∧
      (a.merge d).1.symbols.entries = a.symbols.entries ++ d.symbols.entries ∧
      ∃ t', d.merged a = some t' ∧ t'.same (a.append d) = true := by
  refine ⟨by decide +kernel, ⟨⟨[("egg", declaredOn 1 "egg")]⟩⟩,
    ⟨⟨[("ham", declaredOn 2 "ham"), ("egg", declaredOn 3 "egg"), ("oil", declaredOn 5 "oil")]⟩⟩,
    ⟨⟨[("oil", declaredOn 6 "oil")]⟩⟩, by decide +kernel, ?_, ?_, ?_⟩
  · refine ((symbolTable_laws halfMerge).2 _ ?_ _ ?_).2.2.1 ?_ <;> decide +kernel
  · refine ((symbolTable_laws halfMerge).2 _ ?_ _ ?_).2.1 ?_ <;> decide +kernel
  · refine ((symbolTable_laws halfMerge).2 _ ?_ _ ?_).2.2.2.1 _ ?_ <;> decide +kernel

end PizzaLang
