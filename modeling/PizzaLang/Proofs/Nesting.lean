import Mathlib.Data.Set.Card
import PizzaLang.Proofs.Blindness
import PizzaLang.Proofs.Cycles

/-!
# Inclusion comes to an end

A unit that is included may include others, and nothing in their texts keeps this from going on
for ever. The chain of open units does: no unit is put on it twice, and every unit on it but the
first has been located, so it cannot grow longer than the number of paths that can be located, and
one more (`PizzaLang.Sources.Chained.length_le`). The limit that a compiler sets to the length of
the chain is therefore never reached if it is above that number, and then it does not matter what
it is (`PizzaLang.Compiler.extends_compileNested`).

What is said of the chain is said of the course of a compilation, not only of its end. It is the
record that carries this: whenever a unit is entered, and whenever a text is asked for, the open
units are put on record, and all that is on record in the end is in order
(`PizzaLang.Session.InOrder`, `PizzaLang.Session.Confined`). `PizzaLang.CompileM.Throughout` is how
such conditions are carried through a compilation: it takes the compilation apart into basic steps
and holds if the condition holds before and after each of them. A compilation can be taken apart in
more than one way, so by itself the predicate says no more of what happens inside than what the
events say.

The result is `PizzaLang.Compiler.inclusion_terminates`.
-/

namespace PizzaLang

/-! ### Conditions along a compilation -/

namespace CompileM

variable {α β ε : Type}

/-- **A condition holds throughout a step**: the step can be made of basic ones so that the
condition holds of the session before and after each of these. If the step fails, then with an error
of some sort. There may be other ways to make the step, and the condition is asked for along one of
them only; what happens inside a step is seen in the events that it leaves on record, so what the
condition says of these is what counts. -/
inductive Throughout (P : Session → Prop) (E : CompileError → Prop) :
    {α : Type} → CompileM α → Session → Prop
  | pure {α : Type} {a : α} {s : Session} : P s → Throughout P E (pure a) s
  | throw {α : Type} {e : CompileError} {s : Session} :
      P s → E e → Throughout P E (throw e : CompileM α) s
  | record {e : Event} {s : Session} :
      P s → P { s with events := s.events.push e } → Throughout P E (record e) s
  | lift {α ε : Type} {wrap : ε → CompileError} {result : Except ε α} {s : Session} :
      P s → (∀ e, result = .error e → E (wrap e)) → Throughout P E (lift wrap result) s
  | chain {s : Session} : P s → Throughout P E chain s
  | bind {α β : Type} {x : CompileM α} {f : α → CompileM β} {s : Session} :
      Throughout P E x s → (∀ a t, x s = .ok a t → Throughout P E (f a) t) →
      Throughout P E (x >>= f) s
  | within {α : Type} {unit : Path} {act : CompileM α} {s : Session} :
      P s → Throughout P E act { s with chain := unit :: s.chain } →
      P (pop (act.runFrom { s with chain := unit :: s.chain }).2) →
      Throughout P E (within unit act) s

variable {P P' : Session → Prop} {E : CompileError → Prop} {act x : CompileM α}
  {f : α → CompileM β} {s t : Session}

/-- What holds throughout a step holds at its end, and its error is of the sort. -/
theorem Throughout.run (h : Throughout P E act s) :
    P (act.runFrom s).2 ∧ ∀ e, (act.runFrom s).1 = .error e → E e := by
  induction h with
  | pure hs => exact ⟨hs, fun e he => by cases he⟩
  | throw hs he =>
    refine ⟨hs, fun e' he' => ?_⟩
    obtain rfl := Except.error.inj he'
    exact he
  | record _ hs => exact ⟨hs, fun e he => by cases he⟩
  | @lift _ _ wrap result s hs he =>
    cases result with
    | ok a => exact ⟨hs, fun e he => by cases he⟩
    | error e' =>
      refine ⟨hs, fun e he' => ?_⟩
      obtain rfl := Except.error.inj he'
      exact he e' rfl
  | chain hs => exact ⟨hs, fun e he => by cases he⟩
  | @bind _ _ x f s _ _ ihx ihf =>
    rw [runFrom_bind]
    cases hx : x s with
    | ok a t => simpa only [runFrom, hx] using ihf a t hx
    | error e t =>
      simp only [runFrom, hx] at ihx ⊢
      refine ⟨ihx.1, fun e' he' => ihx.2 e' ?_⟩
      rw [Except.error.inj he']
  | @within _ unit act s _ _ hpop ih =>
    rw [runFrom_within]
    exact ⟨hpop, ih.2⟩

theorem Throughout.of_ok (h : Throughout P E act s) {a : α} (hok : act s = .ok a t) : P t := by
  have hend := h.run.1
  rwa [runFrom, hok] at hend

theorem Throughout.mono (h : Throughout P E act s) (hP : ∀ s, P s → P' s) :
    Throughout P' E act s := by
  induction h with
  | pure hs => exact .pure (hP _ hs)
  | throw hs he => exact .throw (hP _ hs) he
  | record hs ht => exact .record (hP _ hs) (hP _ ht)
  | lift hs he => exact .lift (hP _ hs) he
  | chain hs => exact .chain (hP _ hs)
  | bind _ _ ihx ihf => exact .bind ihx ihf
  | within hs _ hpop ih => exact .within (hP _ hs) ih (hP _ hpop)

theorem Blind.chain_of_ok (h : Blind act) {a : α} (hok : act s = .ok a t) :
    t.chain = s.chain := by
  have hchain := h.chain_eq (s := s)
  rwa [runFrom, hok] at hchain

/-- **A step keeps a condition**: wherever the condition holds at the start, it holds
throughout. -/
def Keeps (P : Session → Prop) (E : CompileError → Prop) (act : CompileM α) : Prop :=
  ∀ s, P s → Throughout P E act s

theorem keeps_pure {a : α} : Keeps P E (pure a) := fun _ => .pure

theorem keeps_throw {e : CompileError} (he : E e) : Keeps P E (throw e : CompileM α) :=
  fun _ hs => .throw hs he

theorem keeps_lift {wrap : ε → CompileError} {result : Except ε α} (he : ∀ e, E (wrap e)) :
    Keeps P E (lift wrap result) :=
  fun _ hs => .lift hs fun e _ => he e

theorem Keeps.bind (hx : Keeps P E x) (hf : ∀ a, Keeps P E (f a)) : Keeps P E (x >>= f) :=
  fun s hs => .bind (hx s hs) fun a t hok => hf a t ((hx s hs).of_ok hok)

end CompileM

/-! ### Chains -/

namespace Sources

/-- **The paths that can be located.** Paths that are the same count as one. -/
def located (sources : Sources) : Set (List Path.Component) :=
  { cs | ∃ reference origin id, sources.locate reference origin = .ok id ∧ id.components = cs }

/-- **A chain of units that have been included**, each by the next: no unit is on it twice, and
each but the last has been located. -/
structure Chained (sources : Sources) (chain : List Path) : Prop where
  differ : chain.Pairwise fun p q => ¬p.Same q
  located : ∀ p ∈ chain.dropLast, p.components ∈ sources.located

variable {sources : Sources} {chain : List Path} {id : Path}

theorem chained_nil : sources.Chained [] :=
  ⟨List.Pairwise.nil, fun _ hp => absurd hp List.not_mem_nil⟩

theorem chained_singleton (unit : Path) : sources.Chained [unit] :=
  ⟨List.pairwise_singleton _ _, fun _ hp => absurd hp List.not_mem_nil⟩

theorem Chained.cons (h : sources.Chained chain) (hid : id.components ∈ sources.located)
    (hnew : ∀ p ∈ chain, ¬id.Same p) : sources.Chained (id :: chain) := by
  refine ⟨List.pairwise_cons.mpr ⟨hnew, h.differ⟩, fun p hp => ?_⟩
  cases chain with
  | nil => exact absurd hp List.not_mem_nil
  | cons q chain =>
    rw [List.dropLast_cons_cons] at hp
    rcases List.mem_cons.mp hp with rfl | hp
    · exact hid
    · exact h.located p hp

/-- **A chain is no longer than the number of paths that can be located**, and one more. -/
theorem Chained.length_le (h : sources.Chained chain) (hfinite : sources.located.Finite) :
    chain.length ≤ sources.located.ncard + 1 := by
  have hnodup : (chain.dropLast.map Path.components).Nodup :=
    List.Pairwise.map _ (fun _ _ hne => hne) (h.differ.sublist (List.dropLast_sublist chain))
  have hsubset : ((chain.dropLast.map Path.components).toFinset : Set _) ⊆ sources.located := by
    intro cs hcs
    obtain ⟨p, hp, rfl⟩ := List.mem_map.mp (List.mem_toFinset.mp hcs)
    exact h.located p hp
  have hcard := Set.ncard_le_ncard hsubset hfinite
  rw [Set.ncard_coe_finset, List.toFinset_card_of_nodup hnodup, List.length_map,
    List.length_dropLast] at hcard
  omega

/-- Paths that are all on a list are finite in number, and not more than the list is long. -/
theorem finite_located {paths : List Path}
    (h : ∀ reference origin id, sources.locate reference origin = .ok id →
      ∃ p ∈ paths, id.Same p) :
    sources.located.Finite ∧ sources.located.ncard ≤ paths.length := by
  have hsubset : sources.located ⊆ ((paths.map Path.components).toFinset : Set _) := by
    rintro _ ⟨reference, origin, id, hid, rfl⟩
    obtain ⟨p, hp, hsame⟩ := h reference origin id hid
    exact List.mem_toFinset.mpr (List.mem_map.mpr ⟨p, hp, hsame.symm⟩)
  have hfinite := Finset.finite_toSet (paths.map Path.components).toFinset
  refine ⟨hfinite.subset hsubset, (Set.ncard_le_ncard hsubset hfinite).trans ?_⟩
  rw [Set.ncard_coe_finset]
  exact (List.toFinset_card_le _).trans (List.length_map _).le

end Sources

/-- What is located in a library is one of its units. -/
theorem Library.finite_located (l : Library) :
    l.sources.located.Finite ∧ l.sources.located.ncard ≤ l.units.length := by
  rw [← List.length_map (·.1)]
  refine Sources.finite_located fun reference origin id hid => ?_
  change l.locate reference origin = .ok id at hid
  rw [locate] at hid
  split at hid
  · next path hpath =>
    obtain rfl := Except.ok.inj hid
    have hsome := List.find?_some hpath
    rw [text?, Option.isSome_map, List.find?_isSome] at hsome
    obtain ⟨⟨p, text⟩, hmem, hsame⟩ := hsome
    exact ⟨p, List.mem_map.mpr ⟨_, hmem, rfl⟩, (of_decide_eq_true hsame).symm⟩
  · cases hid

/-- What is located in a catalogue is one of its answers. -/
theorem Catalogue.finite_located (c : Catalogue) :
    c.sources.located.Finite ∧ c.sources.located.ncard ≤ c.locations.length := by
  have hlisted : c.sources.located.Finite ∧
      c.sources.located.ncard ≤ (c.locations.filterMap (·.2.toOption)).length := by
    refine Sources.finite_located fun reference origin id hid => ?_
    change answer c.locations reference.text = .ok id at hid
    rw [answer] at hid
    cases hlookup : c.locations.lookup reference.text with
    | none =>
      rw [hlookup] at hid
      cases hid
    | some found =>
      rw [hlookup] at hid
      obtain rfl : found = .ok id := hid
      obtain ⟨before, after, heq, -⟩ := List.lookup_eq_some_iff.mp hlookup
      have hmem : (reference.text, .ok id) ∈ c.locations := by
        rw [heq]
        exact List.mem_append_right _ List.mem_cons_self
      exact ⟨id, List.mem_filterMap.mpr ⟨_, hmem, rfl⟩, rfl⟩
  exact ⟨hlisted.1, hlisted.2.trans (List.length_filterMap_le _ _)⟩

/-! ### Sessions in order -/

/-- **An event in order**: the text of a unit is asked for while the unit is not open, and the
units that are open when one is entered are a chain. -/
def Event.InOrder (sources : Sources) : Event → Prop
  | loaded id chain => ∀ p ∈ chain, ¬id.Same p
  | entered chain => sources.Chained chain
  | _ => True

/-- **A session in order**: the open units are a chain, and all that is on record is in order. -/
structure Session.InOrder (sources : Sources) (s : Session) : Prop where
  chained : sources.Chained s.chain
  events : ∀ e ∈ s.events, e.InOrder sources

/-- **The open units differ and are not too many**, and the record says that it has been so
whenever a unit was entered, and that no text has been asked for while its unit was open. -/
structure Session.Confined (bound : Nat) (s : Session) : Prop where
  differ : s.chain.Pairwise fun p q => ¬p.Same q
  length_le : s.chain.length ≤ bound
  entered : ∀ chain, .entered chain ∈ s.events →
    chain.Pairwise (fun p q => ¬p.Same q) ∧ chain.length ≤ bound
  loaded : ∀ id chain, .loaded id chain ∈ s.events → ∀ p ∈ chain, ¬id.Same p

namespace Session.InOrder

variable {sources : Sources} {s : Session} {e : Event}

theorem push (h : s.InOrder sources) (he : e.InOrder sources) :
    Session.InOrder sources { s with events := s.events.push e } := by
  refine ⟨h.chained, fun e' hmem => ?_⟩
  rcases Array.mem_push.mp hmem with hmem | rfl
  · exact h.events e' hmem
  · exact he

theorem confined (h : s.InOrder sources) (hfinite : sources.located.Finite) :
    s.Confined (sources.located.ncard + 1) :=
  ⟨h.chained.differ, h.chained.length_le hfinite,
    fun _ hmem => ⟨(h.events _ hmem).differ, (h.events _ hmem).length_le hfinite⟩,
    fun _ _ hmem => h.events _ hmem⟩

end Session.InOrder

/-- The error is not that of a chain that is too long. -/
def CompileError.NotNesting (e : CompileError) : Prop := ∀ unit, e ≠ .nesting unit

theorem not_nesting_of_tokensOf {unit : Path} {text : String} {e : CompileError}
    (h : tokensOf unit text = .error e) : e.NotNesting := by
  intro _ heq
  rw [heq, tokensOf] at h
  rcases Fallible.bind_eq_error_iff.mp h with h | ⟨source, -, h⟩ <;>
  · obtain ⟨_, -, hne⟩ := Fallible.mapError_eq_error_iff.mp h
    cases hne

namespace Compiler

open CompileM

variable {α : Type} {c : Compiler} {m : Menu} {t : SyntaxTree} {s : Session}

/-- **A step keeps sessions in order**, and does not fail for the length of the chain. -/
abbrev KeepsOrder (c : Compiler) (act : CompileM α) : Prop :=
  Keeps (Session.InOrder c.sources) CompileError.NotNesting act

/-- **The session is in order throughout a step**, and it does not fail for the length of the
chain. -/
abbrev InOrderThroughout (c : Compiler) (act : CompileM α) (s : Session) : Prop :=
  Throughout (Session.InOrder c.sources) CompileError.NotNesting act s

/-! ### Steps -/

theorem notNesting_semantic (e : SemanticError) : (CompileError.semantic e).NotNesting := by
  simp [CompileError.NotNesting]

theorem notNesting_resource (e : ResourceError) : (CompileError.resource e).NotNesting := by
  simp [CompileError.NotNesting]

theorem keepsOrder_record {e : Event} (he : e.InOrder c.sources) : c.KeepsOrder (record e) :=
  fun _ hs => .record hs (hs.push he)

theorem keepsOrder_measure {reference : String} {origin : Path} :
    c.KeepsOrder (c.measure reference origin) := by
  refine (keepsOrder_record (by trivial)).bind fun _ => ?_
  split
  · exact (keepsOrder_record (by trivial)).bind fun _ => keeps_pure
  · exact keeps_pure
  · exact keeps_pure

theorem keepsOrder_symbolOf : c.KeepsOrder (c.symbolOf m t) := by
  have hlift {β : Type} {r : Except SemanticError β} : c.KeepsOrder (lift .semantic r) :=
    keeps_lift notNesting_semantic
  rw [symbolOf]
  split
  · exact hlift.bind fun _ => hlift.bind fun _ => keepsOrder_measure.bind fun _ =>
      (keeps_lift notNesting_resource).bind fun _ => hlift.bind fun _ => keeps_pure
  · exact hlift.bind fun _ => keeps_pure
  · exact keeps_throw (notNesting_semantic _)

theorem keepsOrder_define : c.KeepsOrder (c.define m t) :=
  (keeps_lift notNesting_semantic).bind fun _ => keepsOrder_symbolOf.bind fun _ =>
    (keepsOrder_record (by trivial)).bind fun _ =>
      (keeps_lift fun _ => notNesting_semantic _).bind fun _ => keeps_pure

theorem keepsOrder_order : c.KeepsOrder (order m t) :=
  (keeps_lift notNesting_semantic).bind fun _ =>
    (keepsOrder_record (by trivial)).bind fun _ => keeps_pure

/-- The test for open units comes before the text is asked for. -/
theorem keepsOrder_resolve {unit : Path} {reference : String} {position : Position} :
    c.KeepsOrder (c.resolve unit reference position) := by
  rw [resolve]
  split
  · exact keeps_throw (notNesting_resource _)
  refine ((keepsOrder_record (by trivial)).bind fun _ => keeps_pure).bind fun _ =>
    (keeps_lift notNesting_resource).bind fun id => ?_
  intro s hs
  refine .bind (.chain hs) fun busy t hchain => ?_
  obtain ⟨rfl, rfl⟩ := chain_eq_ok_iff.mp hchain
  split
  · exact .throw hs (notNesting_resource _)
  next hbusy =>
  have hnew : ∀ p ∈ s.chain, ¬id.Same p := fun p hp hsame => hbusy (Or.inr ⟨p, hp, hsame⟩)
  have hload : c.InOrderThroughout (c.load id) s := by
    refine .bind (.chain hs) fun busy t hchain => ?_
    obtain ⟨rfl, rfl⟩ := chain_eq_ok_iff.mp hchain
    have hpush := hs.push (e := .loaded id s.chain) hnew
    refine .bind (.record hs hpush) fun _ t hrecord => .pure ?_
    rwa [record_eq_ok_iff.mp hrecord]
  refine .bind hload fun _ t hok => ?_
  exact ((keeps_lift notNesting_resource).bind fun _ => keeps_pure) t (hload.of_ok hok)

/-! ### Statements -/

section Statements

variable {chain : List Path} {compile : Path → String → CompileM Menu}
  (hblind : ∀ id text, Blind (compile id text))
  (hcompile : ∀ id text s, s.InOrder c.sources → s.chain = chain →
    c.sources.Chained (id :: chain) → c.InOrderThroughout (compile id text) s)

include hcompile

theorem inOrder_includeUnit (hs : s.InOrder c.sources) (hchain : s.chain = chain) :
    c.InOrderThroughout (c.includeUnit compile m t) s := by
  refine .bind (.lift hs fun e _ => notNesting_semantic e) fun path s₀ hpath => ?_
  obtain ⟨-, rfl⟩ := lift_eq_ok_iff.mp hpath
  refine .bind (keepsOrder_resolve s hs) ?_
  rintro ⟨id, text⟩ s₁ hresolve
  have hs₁ := (keepsOrder_resolve s hs).of_ok hresolve
  obtain ⟨hid, -, hnew, hpassed⟩ := resolve_sound hresolve
  have hnote := keepsOrder_record (e := .including id t.position) trivial s₁ hs₁
  refine .bind hnote fun _ s₂ hrecord => ?_
  have hchain₂ : s₂.chain = chain := by
    rw [record_eq_ok_iff.mp hrecord]
    exact hpassed.chain.trans hchain
  have hchained : c.sources.Chained (id :: chain) :=
    (hchain ▸ hs.chained).cons ⟨_, _, id, hid, rfl⟩
      (hchain ▸ (List.forall_mem_cons.mp hnew).2)
  have hinner := hcompile id text s₂ (hnote.of_ok hrecord) hchain₂ hchained
  refine .bind hinner fun included v hok => ?_
  exact .lift (hinner.of_ok hok) fun _ _ => notNesting_semantic _

theorem inOrder_statement (hs : s.InOrder c.sources) (hchain : s.chain = chain) :
    c.InOrderThroughout (c.statement compile m t) s := by
  rw [statement]
  split
  · exact inOrder_includeUnit hcompile hs hchain
  · exact keepsOrder_define s hs
  · exact keepsOrder_order s hs
  · exact .throw hs (notNesting_semantic _)

include hblind

theorem inOrder_statements {ts : List SyntaxTree} (hs : s.InOrder c.sources)
    (hchain : s.chain = chain) : c.InOrderThroughout (ts.foldlM (c.statement compile) m) s := by
  induction ts generalizing m s with
  | nil => exact .pure hs
  | cons t ts ih =>
    rw [List.foldlM_cons]
    have hstep : c.InOrderThroughout (c.statement compile m t) s :=
      inOrder_statement hcompile hs hchain
    refine .bind hstep fun m' s' hok => ih (hstep.of_ok hok) ?_
    exact ((blind_statement hblind).chain_of_ok hok).trans hchain

theorem inOrder_analyzeWith {unit : Path} {tree : Option SyntaxTree} (hs : s.InOrder c.sources)
    (hchain : s.chain = chain) : c.InOrderThroughout (c.analyzeWith compile unit tree) s := by
  cases tree with
  | none => exact .throw hs (notNesting_semantic _)
  | some tree =>
    have hfold : c.InOrderThroughout
        (tree.children.foldlM (c.statement compile) (.blank unit)) s :=
      inOrder_statements hblind hcompile hs hchain
    refine .bind hfold fun m t hok => ?_
    exact ((keepsOrder_record (by trivial)).bind fun _ => keeps_pure) t (hfold.of_ok hok)

end Statements

/-! ### Units -/

theorem inOrder_within {unit : Path} {act : CompileM α} (hs : s.InOrder c.sources)
    (hblind : Blind act) (hact : c.InOrderThroughout act { s with chain := unit :: s.chain }) :
    c.InOrderThroughout (within unit act) s := by
  refine .within hs hact ⟨?_, hact.run.1.events⟩
  rw [pop, hblind.chain_eq]
  exact hs.chained

section Units

variable {unit : Path} {text : String} {room : Nat}

/-- There is always room for the units that are included. -/
theorem inOrder_compileNested (hfinite : c.sources.located.Finite) (hs : s.InOrder c.sources)
    (hchained : c.sources.Chained (unit :: s.chain))
    (hroom : c.sources.located.ncard < room + s.chain.length) :
    c.InOrderThroughout (c.compileNested room unit text) s := by
  induction room generalizing unit text s with
  | zero =>
    have hlength := hchained.length_le hfinite
    rw [List.length_cons] at hlength
    omega
  | succ room ih =>
    refine .bind (.lift hs fun e he => not_nesting_of_tokensOf he) fun tokens s₁ hok => ?_
    obtain ⟨-, rfl⟩ := lift_eq_ok_iff.mp hok
    have hlexed := hs.push (e := .lexed unit tokens.length) trivial
    refine .bind (.record hs hlexed) fun _ s₂ hok => ?_
    obtain rfl := record_eq_ok_iff.mp hok
    refine .bind (.lift hlexed fun e _ => by simp [CompileError.NotNesting]) fun forest s₃ hok => ?_
    obtain ⟨-, rfl⟩ := lift_eq_ok_iff.mp hok
    have hparsed := hlexed.push (e := .parsed unit forest.size) trivial
    refine .bind (.record hlexed hparsed) fun _ s₄ hok => ?_
    obtain rfl := record_eq_ok_iff.mp hok
    have hblind := blind_compileNested (c := c) room
    refine inOrder_within hparsed (blind_chain.bind fun _ => blind_record.bind fun _ =>
      blind_analyzeWith hblind) ?_
    -- from here on the unit is on the chain, so there is room for one unit less
    have hinside : Session.InOrder c.sources ⟨unit :: s.chain, _⟩ := ⟨hchained, hparsed.events⟩
    refine .bind (.chain hinside) fun units s₅ hok => ?_
    obtain ⟨rfl, rfl⟩ := chain_eq_ok_iff.mp hok
    have hentered := hinside.push (e := .entered (unit :: s.chain)) hchained
    refine .bind (.record hinside hentered) fun _ s₆ hok => ?_
    obtain rfl := record_eq_ok_iff.mp hok
    refine inOrder_analyzeWith hblind (fun id text u hu hchain hid => ?_) hentered rfl
    refine ih hu (hchain ▸ hid) ?_
    have hlength : u.chain.length = s.chain.length + 1 := congrArg List.length hchain
    omega

end Units

/-! ### More room -/

/-- **A step goes further than another**: what comes out of the other comes out of it too, unless
the other fails for the length of the chain. -/
def Extends (act act' : CompileM α) : Prop :=
  ∀ s, (∀ e s', act s = .error e s' → e.NotNesting) → act' s = act s

theorem extends_refl (act : CompileM α) : Extends act act := fun _ _ => rfl

theorem Extends.bind {β : Type} {x x' : CompileM α} {f f' : α → CompileM β} (hx : Extends x x')
    (hf : ∀ a, Extends (f a) (f' a)) : Extends (x >>= f) (x' >>= f') := by
  intro s h
  cases hok : x s with
  | ok a t =>
    have hok' : x' s = .ok a t := by
      rw [hx s (fun e s' he => by rw [hok] at he; cases he), hok]
    rw [Stateful.bind_of_ok hok] at h
    rw [Stateful.bind_of_ok hok, Stateful.bind_of_ok hok', hf a t h]
  | error e t =>
    have hfails : (x >>= f) s = .error e t := Stateful.bind_of_error hok
    have hfails' : x' s = .error e t := by
      refine (hx s fun e' s' he => ?_).trans hok
      obtain ⟨rfl, rfl⟩ := EStateM.Result.error.inj (hok.symm.trans he)
      exact h e t hfails
    rw [hfails, Stateful.bind_of_error hfails']

theorem Extends.within {unit : Path} {act act' : CompileM α} (h : Extends act act') :
    Extends (CompileM.within unit act) (CompileM.within unit act') := by
  intro s hs
  have hpush (act : CompileM α) :
      (do push unit; act : CompileM α) s = act { s with chain := unit :: s.chain } :=
    Stateful.bind_of_ok rfl
  rw [CompileM.within, CompileM.within, hpush, hpush, h]
  intro e t he
  exact hs e (pop t) (within_eq_error_iff.mpr ⟨t, he, rfl⟩)

theorem extends_foldlM {β : Type} {step step' : β → α → CompileM β}
    (h : ∀ b a, Extends (step b a) (step' b a)) (as : List α) (b : β) :
    Extends (as.foldlM step b) (as.foldlM step' b) := by
  induction as generalizing b with
  | nil => exact extends_refl _
  | cons a as ih =>
    rw [List.foldlM_cons, List.foldlM_cons]
    exact (h b a).bind ih

theorem extends_analyzeWith {compile compile' : Path → String → CompileM Menu}
    (h : ∀ id text, Extends (compile id text) (compile' id text)) (unit : Path)
    (tree : Option SyntaxTree) :
    Extends (c.analyzeWith compile unit tree) (c.analyzeWith compile' unit tree) := by
  have hstatement (m : Menu) (t : SyntaxTree) :
      Extends (c.statement compile m t) (c.statement compile' m t) := by
    rw [statement, statement]
    split
    · exact (extends_refl _).bind fun _ => (extends_refl _).bind fun _ =>
        (extends_refl _).bind fun _ => (h _ _).bind fun _ => extends_refl _
    · exact extends_refl _
    · exact extends_refl _
    · exact extends_refl _
  cases tree with
  | none => exact extends_refl _
  | some tree =>
    exact (extends_foldlM hstatement _ _).bind fun _ => extends_refl _

/-- **More room changes nothing** but failures for the length of the chain. -/
theorem extends_compileNested (c : Compiler) {room room' : Nat} (hle : room ≤ room')
    (unit : Path) (text : String) :
    Extends (c.compileNested room unit text) (c.compileNested room' unit text) := by
  induction room generalizing room' unit text with
  | zero =>
    intro s h
    exact absurd rfl (h (.nesting unit) s rfl unit)
  | succ room ih =>
    obtain ⟨more, rfl⟩ := Nat.exists_eq_add_of_lt hle
    rw [compileNested, compileNested]
    refine (extends_refl _).bind fun _ => (extends_refl _).bind fun _ =>
      (extends_refl _).bind fun _ => (extends_refl _).bind fun _ => Extends.within ?_
    exact (extends_refl _).bind fun _ => (extends_refl _).bind fun _ =>
      extends_analyzeWith (ih (by omega)) _ _

theorem compileNested_limit (sources : Sources) (images : Images) (limit limit' room : Nat) :
    (⟨sources, images, limit⟩ : Compiler).compileNested room =
      (⟨sources, images, limit'⟩ : Compiler).compileNested room := by
  induction room with
  | zero => rfl
  | succ room ih =>
    funext unit text
    rw [compileNested, compileNested, ih]
    rfl

/-! ### The end of inclusion -/

/-- **Inclusion comes to an end**, whatever the units include.

* In a library and in a catalogue, finitely many paths can be located.
* Where finitely many paths can be located, the compilation of a text has an outcome that is the
  same for all limits above the number of these paths, and the limit is not what it fails for. The
  events on record say that whenever a unit was entered the open units were different, at most one
  more than these paths, and that a text was never asked for while its unit was open. -/
theorem inclusion_terminates :
    (∀ l : Library, l.sources.located.Finite ∧ l.sources.located.ncard ≤ l.units.length) ∧
    (∀ c : Catalogue, c.sources.located.Finite ∧
      c.sources.located.ncard ≤ c.locations.length) ∧
    ∀ (sources : Sources) (images : Images), sources.located.Finite →
      ∀ (unit : Path) (text : String), ∃ outcome, (∀ e s, outcome = .error e s → e.NotNesting) ∧
        ∀ limit, sources.located.ncard < limit →
        (⟨sources, images, limit⟩ : Compiler).compileUnit unit text (.ofChain []) = outcome ∧
        Throughout (Session.Confined (sources.located.ncard + 1)) CompileError.NotNesting
          ((⟨sources, images, limit⟩ : Compiler).compileUnit unit text) (.ofChain []) := by
  refine ⟨Library.finite_located, Catalogue.finite_located, ?_⟩
  intro sources images hfinite unit text
  have hstart : Session.InOrder sources (.ofChain []) :=
    ⟨Sources.chained_nil, fun _ hmem => absurd hmem (Array.not_mem_empty _)⟩
  have hinOrder (limit : Nat) (hlimit : sources.located.ncard < limit) :
      InOrderThroughout ⟨sources, images, limit⟩
        ((⟨sources, images, limit⟩ : Compiler).compileUnit unit text) (.ofChain []) :=
    inOrder_compileNested hfinite hstart (Sources.chained_singleton unit) hlimit
  let least : Compiler := ⟨sources, images, sources.located.ncard + 1⟩
  have hleast (e : CompileError) (s : Session)
      (he : least.compileUnit unit text (.ofChain []) = .error e s) : e.NotNesting := by
    refine (hinOrder _ (Nat.lt_succ_self _)).run.2 e ?_
    rw [runFrom, he]
  refine ⟨least.compileUnit unit text (.ofChain []), hleast, fun limit hlimit => ⟨?_, ?_⟩⟩
  · rw [compileUnit, compileNested_limit sources images limit (sources.located.ncard + 1)]
    exact extends_compileNested least hlimit unit text _ hleast
  · exact (hinOrder limit hlimit).mono fun s hs => hs.confined hfinite

/-- In a ring of two units a unit is compiled to the same refusal under every limit above two. -/
theorem inclusion_terminates_ring :
    ring.sources.located.Finite ∧ ∀ limit, 2 < limit → ∃ s,
      (⟨ring.sources, (Gallery.ofList []).images, limit⟩ : Compiler).compileUnit
          ⟨"d/a.pf"⟩ "include 'b';" (.ofChain []) =
        .error (.resource (.recursiveInclude "./a.pf" ⟨"d/./a.pf"⟩ ⟨1, 1, ⟨"d/b.pf"⟩⟩)) s := by
  have hring := inclusion_terminates.1 ring
  refine ⟨hring.1, fun limit hlimit => ?_⟩
  have hcard : ring.sources.located.ncard ≤ 2 := hring.2
  obtain ⟨outcome, -, houtcome⟩ := inclusion_terminates.2.2 ring.sources
    (Gallery.ofList []).images hring.1 ⟨"d/a.pf"⟩ "include 'b';"
  have hthree : Stateful.fails
      ((⟨ring.sources, (Gallery.ofList []).images, 3⟩ : Compiler).compileUnit
        ⟨"d/a.pf"⟩ "include 'b';" (.ofChain []))
      (· = .resource (.recursiveInclude "./a.pf" ⟨"d/./a.pf"⟩ ⟨1, 1, ⟨"d/b.pf"⟩⟩)) = true := by
    decide +kernel
  obtain ⟨e, s, he, htest⟩ := Stateful.exists_of_fails hthree
  obtain rfl := of_decide_eq_true htest
  refine ⟨s, ?_⟩
  rw [(houtcome limit (by omega)).1, ← (houtcome 3 (by omega)).1, he]

end Compiler

end PizzaLang
