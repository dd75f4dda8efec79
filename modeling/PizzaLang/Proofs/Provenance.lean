import PizzaLang.Proofs.Failure
import PizzaLang.Proofs.Placement
import PizzaLang.Proofs.Unrecognized

/-!
# Positions lead back to the text

A compilation copies positions from tokens into symbols, orders and errors, and from one unit into
the menus of others. None of them is ever made up or changed on the way: each names a unit that the
compilation has visited, and in the text of that unit the thing that the position is given for
stands in that place.

Which units have been visited is a matter of the session. A unit is visited once its text has been
asked for, so a position that is right stays right as the record grows. All steps of a compilation
are followed with that in mind (`PizzaLang.CompileM.Traces`), whether they succeed or fail.

The result is `PizzaLang.Compiler.positions_traced`.
-/

namespace PizzaLang

/-! ### Units that have been visited -/

/-- **A unit of the include tree** of a text: the text itself is that of the root, and each unit
leads to those that its statements include. -/
inductive Sources.Reaches (sources : Sources) (unit : Path) (text : String) :
    Path → String → Prop
  | root : Reaches sources unit text unit text
  | inside {id id' : Path} {inner inner' : String} {tree t : SyntaxTree} :
      Reaches sources unit text id inner → IsProgram id inner tree → t ∈ tree.children →
      t.kind = .inclusion → sources.Leads id t id' inner' → Reaches sources unit text id' inner'

/-- **A unit that has been visited** while a text is compiled: the text itself, or a unit of its
include tree whose text has been asked for. -/
inductive Compiler.Visited (c : Compiler) (unit : Path) (text : String) (s : Session) :
    Path → String → Prop
  | root : Visited c unit text s unit text
  | inside {id : Path} {inner : String} {chain : List Path} :
      c.sources.Reaches unit text id inner → .loaded id chain ∈ s.events →
      Visited c unit text s id inner

theorem Compiler.Visited.reaches {c : Compiler} {unit id : Path} {text inner : String} {s : Session}
    (h : c.Visited unit text s id inner) : c.sources.Reaches unit text id inner := by
  cases h with
  | root => exact .root
  | inside hreaches _ => exact hreaches

/-- The record of a session only grows. -/
def Session.Grows (s s' : Session) : Prop := ∀ e ∈ s.events, e ∈ s'.events

namespace Session.Grows

variable {s s' s'' : Session}

theorem refl (s : Session) : s.Grows s := fun _ he => he

theorem trans (h : s.Grows s') (h' : s'.Grows s'') : s.Grows s'' := fun e he => h' e (h e he)

theorem push (s : Session) (e : Event) : s.Grows { s with events := s.events.push e } :=
  fun _ he => Array.mem_push_of_mem _ he

end Session.Grows

/-! ### Positions that lead back -/

section Traced

variable {V V' : Path → String → Prop}

/-- **A token stands at the position**, in one of some units with their texts. -/
def AtToken (V : Path → String → Prop) (p : Position) : Prop :=
  ∃ inner, V p.unit inner ∧ TokenAt p.unit inner p

/-- **A whole word stands at the position**, in one of some units with their texts. -/
def AtWord (V : Path → String → Prop) (p : Position) (word : String) : Prop :=
  ∃ inner, V p.unit inner ∧ HoldsWord (Text.lines inner) p word

/-- **A name is declared at the position**: there is a token, and a word which is the name apart
from capitals. -/
def AtName (V : Path → String → Prop) (name : String) (p : Position) : Prop :=
  AtToken V p ∧ ∃ word, AtWord V p word ∧ Text.lower word = name

/-- Each declaration is listed under its own name, and declared in a place that is right for it. -/
def SymbolTable.Placed (P : String → Position → Prop) (t : SymbolTable) : Prop :=
  ∀ e ∈ t.symbols.entries, e.2.name = e.1 ∧ P e.1 e.2.declaredAt

/-- **All positions of a menu lead back** to names and orders. -/
structure Menu.Traced (V : Path → String → Prop) (m : Menu) : Prop where
  symbols : m.symbols.Placed (AtName V)
  instructions : ∀ i ∈ m.instructions, AtWord V i.declaredAt "make"

/-- **The position of an error leads back**: to the character that the scanner does not know, to a
token, or to the start of a unit without tokens. A name that is declared twice stands in both
places. Nothing is said of resources. -/
def CompileError.Traced (V : Path → String → Prop) : CompileError → Prop
  | lexical (.unrecognized character position) =>
    ∃ inner, V position.unit inner ∧ HoldsChar (Text.lines inner) position character
  | syntactic e => AtToken V e.position ∨ ∃ inner, V e.position.unit inner ∧
      tokenize e.position.unit (Text.lines inner) = .ok [] ∧ e.position.line = 1 ∧
      e.position.column = 1
  | semantic e => AtToken V e.position ∧ ∀ clash, e = .duplicate clash →
      AtName V clash.name clash.first ∧ AtName V clash.name clash.again
  | resource _ => True
  | nesting _ => True

theorem AtToken.imp {p : Position} (hV : ∀ id inner, V id inner → V' id inner)
    (h : AtToken V p) : AtToken V' p := by
  obtain ⟨inner, hvisited, htoken⟩ := h
  exact ⟨inner, hV _ _ hvisited, htoken⟩

theorem AtWord.imp {p : Position} {word : String} (hV : ∀ id inner, V id inner → V' id inner)
    (h : AtWord V p word) : AtWord V' p word := by
  obtain ⟨inner, hvisited, hword⟩ := h
  exact ⟨inner, hV _ _ hvisited, hword⟩

theorem AtName.imp {p : Position} {name : String} (hV : ∀ id inner, V id inner → V' id inner)
    (h : AtName V name p) : AtName V' name p := by
  obtain ⟨htoken, word, hword, hlower⟩ := h
  exact ⟨htoken.imp hV, word, hword.imp hV, hlower⟩

theorem Menu.Traced.imp {m : Menu} (hV : ∀ id inner, V id inner → V' id inner)
    (h : m.Traced V) : m.Traced V' := by
  refine ⟨fun e he => ?_, fun i hi => (h.instructions i hi).imp hV⟩
  exact ⟨(h.symbols e he).1, (h.symbols e he).2.imp hV⟩

theorem CompileError.Traced.imp {e : CompileError} (hV : ∀ id inner, V id inner → V' id inner)
    (h : e.Traced V) : e.Traced V' := by
  cases e with
  | lexical error =>
    obtain ⟨inner, hvisited, hchar⟩ := h
    exact ⟨inner, hV _ _ hvisited, hchar⟩
  | syntactic error =>
    refine Or.imp (fun htoken => htoken.imp hV) ?_ h
    rintro ⟨inner, hvisited, hstart⟩
    exact ⟨inner, hV _ _ hvisited, hstart⟩
  | semantic error =>
    refine ⟨h.1.imp hV, fun clash heq => ?_⟩
    exact ⟨(h.2 clash heq).1.imp hV, (h.2 clash heq).2.imp hV⟩
  | resource error => trivial
  | nesting unit => trivial

end Traced

theorem SyntaxTree.PlacedIn.imp {P P' : Position → Prop} {t : SyntaxTree} (h : t.PlacedIn P)
    (hP : ∀ p, P p → P' p) : t.PlacedIn P' := by
  induction h with
  | node hlabel _ ih => exact .node (hP _ hlabel) ih

/-! ### Tables -/

namespace SymbolTable.Placed

variable {P : String → Position → Prop} {t t' : SymbolTable} {s : Symbol}

theorem empty : SymbolTable.empty.Placed P := fun _ he => absurd he List.not_mem_nil

theorem insert (ht : t.Placed P) (hs : P s.name s.declaredAt) (h : t.insert s = .ok t') :
    t'.Placed P := by
  obtain ⟨-, rfl⟩ := insert_eq_ok_iff.mp h
  intro e he
  rcases List.mem_append.mp he with he | he
  · exact ht e he
  · obtain rfl := List.mem_singleton.mp he
    exact ⟨rfl, hs⟩

/-- **A name that is declared twice stands in both places.** -/
theorem of_clash (ht : t.Placed P) (hs : P s.name s.declaredAt) {clash : Clash}
    (h : t.insert s = .error clash) : P clash.name clash.first ∧ P clash.name clash.again := by
  rw [SymbolTable.insert] at h
  split at h
  · next bound hbound =>
    obtain rfl := Except.error.inj h
    exact ⟨(ht _ (mem_entries_of_get? hbound)).2, hs⟩
  · cases h

theorem insertAll {ss : List Symbol} (ht : t.Placed P)
    (hss : ∀ s ∈ ss, P s.name s.declaredAt) :
    (t.insertAll ss).1.Placed P ∧ ∀ clash, (t.insertAll ss).2 = some clash →
      P clash.name clash.first ∧ P clash.name clash.again := by
  induction ss generalizing t with
  | nil =>
    refine ⟨ht, fun clash h => ?_⟩
    cases h
  | cons s ss ih =>
    rw [List.forall_mem_cons] at hss
    rw [SymbolTable.insertAll]
    cases hinsert : t.insert s with
    | ok t' => exact ih (ht.insert hss.1 hinsert) hss.2
    | error clash =>
      refine ⟨ht, fun clash' h => ?_⟩
      obtain rfl := Option.some.inj h
      exact ht.of_clash hss.1 hinsert

theorem merge (ht : t.Placed P) (ht' : t'.Placed P) :
    (t.merge t').1.Placed P ∧ ∀ clash, (t.merge t').2 = some clash →
      P clash.name clash.first ∧ P clash.name clash.again := by
  refine ht.insertAll fun s hs => ?_
  obtain ⟨e, he, rfl⟩ := List.mem_map.mp hs
  rw [(ht' e he).1]
  exact (ht' e he).2

end SymbolTable.Placed

/-! ### Steps -/

namespace CompileM

variable {α β ε : Type} {V : Session → Path → String → Prop} {Q R : Session → α → Prop}
  {s : Session} {x : CompileM α}

/-- **A step is traced** from a session on: the record grows, and then the result is as it should
be, or the position of the error leads back to a unit that has been visited. -/
structure Traces (V : Session → Path → String → Prop) (Q : Session → α → Prop) (act : CompileM α)
    (s : Session) : Prop where
  of_ok : ∀ a s', act s = .ok a s' → s.Grows s' ∧ Q s' a
  of_error : ∀ e s', act s = .error e s' → s.Grows s' ∧ e.Traced (V s')

theorem Traces.bind {R : Session → β → Prop} {f : α → CompileM β} (hx : Traces V Q x s)
    (hf : ∀ a s', s.Grows s' → Q s' a → Traces V R (f a) s') : Traces V R (x >>= f) s := by
  constructor
  · intro b s' h
    obtain ⟨a, t, ha, h⟩ := Stateful.bind_eq_ok_iff.mp h
    obtain ⟨hgrows, hQ⟩ := hx.of_ok a t ha
    obtain ⟨hgrows', hR⟩ := (hf a t hgrows hQ).of_ok b s' h
    exact ⟨hgrows.trans hgrows', hR⟩
  · intro e s' h
    rcases Stateful.bind_eq_error_iff.mp h with h | ⟨a, t, ha, h⟩
    · exact hx.of_error e s' h
    · obtain ⟨hgrows, hQ⟩ := hx.of_ok a t ha
      obtain ⟨hgrows', he⟩ := (hf a t hgrows hQ).of_error e s' h
      exact ⟨hgrows.trans hgrows', he⟩

theorem Traces.imp (h : Traces V Q x s) (hQ : ∀ a s', s.Grows s' → Q s' a → R s' a) :
    Traces V R x s := by
  refine ⟨fun a s' ha => ?_, h.of_error⟩
  obtain ⟨hgrows, hQa⟩ := h.of_ok a s' ha
  exact ⟨hgrows, hQ a s' hgrows hQa⟩

theorem traces_pure {a : α} (h : Q s a) : Traces V Q (pure a) s := by
  refine ⟨fun b s' hb => ?_, fun e s' he => absurd he Stateful.pure_ne_error⟩
  obtain ⟨rfl, rfl⟩ := Stateful.pure_eq_ok_iff.mp hb
  exact ⟨.refl s, h⟩

theorem traces_throw {e : CompileError} (h : e.Traced (V s)) : Traces V Q (throw e) s := by
  refine ⟨fun a s' ha => absurd ha Stateful.throw_ne_ok, fun e' s' he => ?_⟩
  obtain ⟨rfl, rfl⟩ := Stateful.throw_eq_error_iff.mp he
  exact ⟨.refl s, h⟩

theorem traces_record {event : Event} :
    Traces V (fun s' _ => event ∈ s'.events) (record event) s := by
  refine ⟨fun _ s' h => ?_, fun e s' h => absurd h record_ne_error⟩
  obtain rfl := record_eq_ok_iff.mp h
  exact ⟨.push s event, Array.mem_push_self⟩

theorem traces_chain : Traces V (fun _ _ => True) chain s := by
  refine ⟨fun _ s' h => ?_, fun e s' h => absurd h chain_ne_error⟩
  obtain ⟨-, rfl⟩ := chain_eq_ok_iff.mp h
  exact ⟨.refl s, trivial⟩

theorem traces_lift {wrap : ε → CompileError} {r : Except ε α}
    (h : ∀ e, r = .error e → (wrap e).Traced (V s)) :
    Traces V (fun _ a => r = .ok a) (lift wrap r) s := by
  constructor
  · intro a s' ha
    obtain ⟨hr, rfl⟩ := lift_eq_ok_iff.mp ha
    exact ⟨.refl s, hr⟩
  · intro e s' he
    obtain ⟨⟨e', hr, rfl⟩, rfl⟩ := lift_eq_error_iff.mp he
    exact ⟨.refl s, h e' hr⟩

/-- What is wrong with the meaning of a tree is said of its nodes. -/
theorem traces_semantic {r : Except SemanticError α} (h : FailsIn (AtToken (V s)) r) :
    Traces V (fun _ a => r = .ok a) (lift .semantic r) s :=
  traces_lift fun e he => ⟨(h e he).1, fun clash hclash => absurd hclash ((h e he).2 clash)⟩

theorem traces_resource {r : Except ResourceError α} :
    Traces V (fun _ a => r = .ok a) (lift .resource r) s :=
  traces_lift fun _ _ => trivial

theorem traces_duplicate {r : Except Clash α}
    (h : ∀ clash, r = .error clash →
      AtName (V s) clash.name clash.first ∧ AtName (V s) clash.name clash.again) :
    Traces V (fun _ a => r = .ok a) (lift (.semantic ∘ .duplicate) r) s := by
  refine traces_lift fun clash hclash => ⟨(h clash hclash).2.1, fun clash' heq => ?_⟩
  obtain rfl := SemanticError.duplicate.inj heq
  exact h clash hclash

theorem traces_foldlM {step : β → α → CompileM β} {Inv : Session → β → Prop} {as : List α}
    (hstep : ∀ a ∈ as, ∀ b s', s.Grows s' → Inv s' b → Traces V Inv (step b a) s') {b : β}
    (hb : Inv s b) : Traces V Inv (as.foldlM step b) s := by
  induction as generalizing s b with
  | nil => exact traces_pure hb
  | cons a as ih =>
    rw [List.forall_mem_cons] at hstep
    rw [List.foldlM_cons]
    refine (hstep.1 b s (.refl s) hb).bind fun b' s' hgrows hb' => ih ?_ hb'
    exact fun a' ha' b s'' hgrows' => hstep.2 a' ha' b s'' (hgrows.trans hgrows')

end CompileM

namespace Compiler

open CompileM

/-- **Units become known** in the course of a compilation: those that are known stay so, and with
a unit those are known that it includes, once their text has been asked for. -/
structure Trail (c : Compiler) (V : Session → Path → String → Prop) : Prop where
  grows : ∀ {s s' : Session}, s.Grows s' → ∀ id inner, V s id inner → V s' id inner
  inside : ∀ {s : Session} {id id' : Path} {inner inner' : String} {tree t : SyntaxTree}
    {chain : List Path}, V s id inner → IsProgram id inner tree → t ∈ tree.children →
    t.kind = .inclusion → c.sources.Leads id t id' inner' → .loaded id' chain ∈ s.events →
    V s id' inner'

/-- The units that have been visited are known. -/
theorem trail_visited (c : Compiler) (unit : Path) (text : String) :
    c.Trail (c.Visited unit text) where
  grows hgrows id inner h := by
    cases h with
    | root => exact .root
    | inside hreaches hloaded => exact .inside hreaches (hgrows _ hloaded)
  inside h hprogram ht hkind hleads hloaded :=
    .inside (.inside h.reaches hprogram ht hkind hleads) hloaded

variable {c : Compiler} {V : Session → Path → String → Prop} {m : Menu} {t d : SyntaxTree}
  {s s' : Session}

theorem traces_measure {reference : String} {origin : Path} :
    Traces V (fun _ _ => True) (c.measure reference origin) s := by
  refine traces_record.bind fun _ s' _ _ => ?_
  split
  · exact traces_record.bind fun _ _ _ _ => traces_pure trivial
  · exact traces_pure trivial
  · exact traces_pure trivial

section Statements

variable (hV : c.Trail V)

theorem Trail.later (hV : c.Trail V) (hgrows : s.Grows s') (ht : t.PlacedIn (AtToken (V s))) :
    t.PlacedIn (AtToken (V s')) :=
  ht.imp fun _ hp => hp.imp (hV.grows hgrows)

include hV

theorem traces_symbolOf (hd : d.PlacedIn (AtToken (V s))) :
    Traces V (fun _ symbol => ∃ name, d.child 0 = .ok name ∧ symbol.name = name.value ∧
      symbol.declaredAt = name.position) (c.symbolOf m d) s := by
  rw [symbolOf]
  split
  · refine (traces_semantic (SyntaxTree.failsIn_child hd 0)).bind fun name s₁ h₁ hname => ?_
    have hd₁ := hV.later h₁ hd
    have hname₁ := hd₁.child hname
    refine (traces_semantic (SyntaxTree.failsIn_child hname₁ 0)).bind fun path s₂ h₂ _ => ?_
    refine traces_measure.bind fun measured s₃ h₃ _ => traces_resource.bind fun size s₄ h₄ _ => ?_
    have h₂₄ := h₂.trans (h₃.trans h₄)
    refine (traces_semantic (failsIn_ingredientOf (hV.later h₂₄ hd₁) (hV.later h₂₄ hname₁))).bind
      fun i s₅ h₅ hi => traces_pure ⟨name, hname, ?_⟩
    obtain ⟨drawn, -, -, -, rfl⟩ := ingredientOf_eq_ok_iff.mp hi
    exact ⟨rfl, rfl⟩
  · refine (traces_semantic (SymbolTable.failsIn_specialtyOf hd)).bind fun p s₁ _ hp => ?_
    obtain ⟨name, portions, hname, -, rfl⟩ := SymbolTable.specialtyOf_eq_ok_iff.mp hp
    exact traces_pure ⟨name, hname, rfl, rfl⟩
  · exact traces_throw ⟨hd.position, fun clash h => by cases h⟩

theorem traces_define (hm : m.Traced (V s)) (ht : t.PlacedIn (AtToken (V s)))
    (hname : ∀ d name, t.child 0 = .ok d → d.child 0 = .ok name →
      AtName (V s) name.value name.position) :
    Traces V (fun s' m' => m'.Traced (V s') ∧ m'.unit = m.unit) (c.define m t) s := by
  refine (traces_semantic (SyntaxTree.failsIn_child ht 0)).bind fun d s₁ h₁ hd => ?_
  refine (traces_symbolOf hV (hV.later h₁ (ht.child hd))).bind fun symbol s₂ h₂ hsymbol => ?_
  refine traces_record.bind fun _ s₃ h₃ _ => ?_
  have h₁₃ := h₁.trans (h₂.trans h₃)
  obtain ⟨name, hchild, hvalue, hposition⟩ := hsymbol
  have hm₃ := hm.imp (hV.grows h₁₃)
  have hplaced : AtName (V s₃) symbol.name symbol.declaredAt := by
    rw [hvalue, hposition]
    exact (hname d name hd hchild).imp (hV.grows h₁₃)
  refine (traces_duplicate fun clash hclash => hm₃.symbols.of_clash hplaced hclash).bind
    fun symbols s₄ h₄ hinsert => traces_pure ⟨?_, rfl⟩
  exact Menu.Traced.imp (hV.grows h₄) ⟨hm₃.symbols.insert hplaced hinsert, hm₃.instructions⟩

theorem traces_order (hm : m.Traced (V s)) (ht : t.PlacedIn (AtToken (V s)))
    (hmake : AtWord (V s) t.position "make") :
    Traces V (fun s' m' => m'.Traced (V s') ∧ m'.unit = m.unit) (order m t) s := by
  refine (traces_semantic (SymbolTable.failsIn_pizzaOf ht)).bind fun pizza s₁ h₁ _ => ?_
  refine traces_record.bind fun _ s₂ h₂ _ => traces_pure ⟨?_, rfl⟩
  refine Menu.Traced.imp (hV.grows (h₁.trans h₂)) ⟨hm.symbols, ?_⟩
  rw [List.forall_mem_append, List.forall_mem_singleton]
  exact ⟨hm.instructions, hmake⟩

omit hV in
/-- An inclusion that means a unit has asked for its text. -/
theorem traces_resolve {unit : Path} {reference : String} {position : Position} :
    Traces V (fun s' found => c.sources.locate ⟨reference⟩ (some unit) = .ok found.1 ∧
      c.sources.load found.1 = .ok found.2 ∧ ∃ chain, .loaded found.1 chain ∈ s'.events)
      (c.resolve unit reference position) s := by
  rw [resolve]
  split
  · exact traces_throw trivial
  have hlocate : Traces V (fun _ located => located = c.sources.locate ⟨reference⟩ (some unit))
      (c.locate ⟨reference⟩ (some unit)) s :=
    traces_record.bind fun _ _ _ _ => traces_pure rfl
  refine hlocate.bind fun located s₁ _ hlocated => traces_resource.bind fun id s₂ _ hid => ?_
  rw [Fallible.mapError_eq_ok_iff, hlocated] at hid
  refine traces_chain.bind fun busy s₃ _ _ => ?_
  split
  · exact traces_throw trivial
  have hload : Traces V (fun s' loaded => loaded = c.sources.load id ∧
      ∃ chain, .loaded id chain ∈ s'.events) (c.load id) s₃ :=
    traces_chain.bind fun chain _ _ _ => traces_record.bind fun _ _ _ hevent =>
      traces_pure ⟨rfl, chain, hevent⟩
  refine hload.bind fun loaded s₄ h₄ hloaded => traces_resource.bind fun text s₅ h₅ htext => ?_
  obtain ⟨rfl, chain, hevent⟩ := hloaded
  exact traces_pure ⟨hid, Fallible.mapError_eq_ok_iff.mp htext, chain, h₅ _ hevent⟩

variable {compile : Path → String → CompileM Menu}
  (hcompile : ∀ id text s, V s id text →
    Traces V (fun s' n => n.Traced (V s')) (compile id text) s)
  {tree : SyntaxTree} {inner : String} (hunit : V s m.unit inner)
  (hprogram : IsProgram m.unit inner tree) (ht : t ∈ tree.children)

omit hV in
include hunit hprogram ht in
/-- All nodes of a statement of a known unit stand at tokens. -/
theorem placedIn_atToken : t.PlacedIn (AtToken (V s)) := by
  refine (hprogram.placedIn ht).imp fun p hp => ?_
  rw [← hp.unit] at hunit hp
  exact ⟨inner, hunit, hp⟩

include hcompile hunit hprogram ht

theorem traces_includeUnit (hkind : t.kind = .inclusion) (hm : m.Traced (V s)) :
    Traces V (fun s' m' => m'.Traced (V s') ∧ m'.unit = m.unit) (c.includeUnit compile m t) s := by
  have hplaced := placedIn_atToken hunit hprogram ht
  refine (traces_semantic (SyntaxTree.failsIn_child hplaced 0)).bind fun path s₁ h₁ hpath => ?_
  refine traces_resolve.bind ?_
  rintro ⟨id, text⟩ s₂ h₂ ⟨hid, htext, chain, hloaded⟩
  have hvisited : V s₂ id text := hV.inside (hV.grows (h₁.trans h₂) _ _ hunit) hprogram ht hkind
    ⟨path, hpath, hid, htext⟩ hloaded
  refine traces_record.bind fun _ s₃ h₃ _ => ?_
  refine (hcompile id text s₃ (hV.grows h₃ _ _ hvisited)).bind fun n s₄ h₄ hn => ?_
  have hm₄ := hm.imp (hV.grows (h₁.trans (h₂.trans (h₃.trans h₄))))
  obtain ⟨hmerged, hclash⟩ := hm₄.symbols.merge hn.symbols
  refine (traces_duplicate fun clash h => ?_).imp fun m' s₅ h₅ h => ?_
  · rw [absorb] at h
    split at h
    · cases h
    · next hmerge =>
      obtain rfl := Except.error.inj h
      exact hclash _ (by rw [hmerge])
  · rw [absorb] at h
    split at h
    · next hmerge =>
      obtain rfl := Except.ok.inj h
      rw [hmerge] at hmerged
      refine ⟨Menu.Traced.imp (hV.grows h₅) ⟨hmerged, ?_⟩, rfl⟩
      exact List.forall_mem_append.mpr ⟨hm₄.instructions, hn.instructions⟩
    · cases h

theorem traces_statement (hm : m.Traced (V s)) :
    Traces V (fun s' m' => m'.Traced (V s') ∧ m'.unit = m.unit) (c.statement compile m t) s := by
  have hplaced := placedIn_atToken hunit hprogram ht
  cases hkind : t.kind
  case inclusion =>
    rw [statement, hkind]
    exact traces_includeUnit hV hcompile hunit hprogram ht hkind hm
  case definition =>
    rw [statement, hkind]
    refine traces_define hV hm hplaced fun d name hd hname => ?_
    obtain ⟨word, hword, hlower⟩ := hprogram.holdsName ht hkind hd hname
    have hat := (((hprogram.placedIn ht).child hd).child hname).position
    have hknown : V s name.position.unit inner := hat.unit ▸ hunit
    exact ⟨((hplaced.child hd).child hname).position, word, ⟨inner, hknown, hword⟩, hlower⟩
  case make =>
    rw [statement, hkind]
    have hknown : V s t.position.unit inner := (hprogram.placedIn ht).position.unit ▸ hunit
    exact traces_order hV hm hplaced ⟨inner, hknown, hprogram.holdsMake ht hkind⟩
  all_goals
    rw [statement, hkind]
    exact traces_throw ⟨hplaced.position, fun clash h => by cases h⟩

end Statements

/-! ### Units -/

section Units

variable (hV : c.Trail V) {unit : Path} {text : String}

include hV

theorem traces_within {act : CompileM Menu}
    (h : Traces V (fun s' n => n.Traced (V s')) act { s with chain := unit :: s.chain }) :
    Traces V (fun s' n => n.Traced (V s')) (within unit act) s := by
  -- taking the unit off the chain leaves the record as it is
  constructor
  · intro n s' hn
    obtain ⟨u, hu, rfl⟩ := within_eq_ok_iff.mp hn
    obtain ⟨hgrows, htraced⟩ := h.of_ok n u hu
    exact ⟨hgrows, htraced.imp (hV.grows (.refl u))⟩
  · intro e s' he
    obtain ⟨u, hu, rfl⟩ := within_eq_error_iff.mp he
    obtain ⟨hgrows, htraced⟩ := h.of_error e u hu
    exact ⟨hgrows, htraced.imp (hV.grows (.refl u))⟩

omit hV in
theorem traces_tokensOf (hunit : V s unit text) :
    Traces V (fun _ tokens => tokensOf unit text = .ok tokens)
      (lift id (tokensOf unit text)) s := by
  refine traces_lift fun e he => ?_
  rcases Fallible.bind_eq_error_iff.mp he with he | ⟨source, hsource, he⟩
  · obtain ⟨_, -, rfl⟩ := Fallible.mapError_eq_error_iff.mp he
    trivial
  · obtain ⟨-, -, hid⟩ := Fallible.bind_eq_ok_iff.mp (Fallible.mapError_eq_ok_iff.mp hsource)
    obtain rfl := Fallible.pure_eq_ok_iff.mp hid
    obtain ⟨⟨character, position⟩, hscan, rfl⟩ := Fallible.mapError_eq_error_iff.mp he
    obtain ⟨rfl, hchar⟩ := holdsChar_of_tokenize hscan
    exact ⟨text, hunit, hchar⟩

omit hV in
theorem traces_parse {tokens : List Token} (hunit : V s unit text)
    (htokens : tokensOf unit text = .ok tokens) :
    Traces V (fun _ forest => parse unit tokens = .ok forest)
      (lift .syntactic (parse unit tokens)) s := by
  obtain ⟨-, htokens⟩ := tokensOf_eq_ok_iff.mp htokens
  refine traces_lift fun e he => ?_
  rcases tokenAt_of_parse he with ⟨t, ht, hposition⟩ | ⟨rfl, hposition⟩
  · have htoken : TokenAt unit text e.position := ⟨tokens, htokens, t, ht, hposition⟩
    rw [← htoken.unit] at hunit htoken
    exact Or.inl ⟨text, hunit, htoken⟩
  · have hstart : e.position.unit = unit := congrArg Position.unit hposition
    rw [← hstart] at hunit htokens
    exact Or.inr ⟨text, hunit, htokens, congrArg Position.line hposition,
      congrArg Position.column hposition⟩

theorem traces_analyzeWith {compile : Path → String → CompileM Menu} {tree : SyntaxTree}
    (hcompile : ∀ id text s, V s id text →
      Traces V (fun s' n => n.Traced (V s')) (compile id text) s)
    (hunit : V s unit text) (hprogram : IsProgram unit text tree) :
    Traces V (fun s' n => n.Traced (V s')) (c.analyzeWith compile unit (some tree)) s := by
  have hblank : (Menu.blank unit).Traced (V s) ∧ (Menu.blank unit).unit = unit :=
    ⟨⟨.empty, fun _ hi => absurd hi List.not_mem_nil⟩, rfl⟩
  have hfold : Traces V (fun s' n => n.Traced (V s') ∧ n.unit = unit)
      (tree.children.foldlM (c.statement compile) (.blank unit)) s := by
    refine traces_foldlM (fun t ht m s' hgrows hm => ?_) hblank
    obtain ⟨hm, rfl⟩ := hm
    exact traces_statement hV hcompile (hV.grows hgrows _ _ hunit) hprogram ht hm
  refine hfold.bind fun m s₁ _ hm => traces_record.bind fun _ s₂ h₂ _ => ?_
  exact traces_pure (hm.1.imp (hV.grows h₂))

/-- **All that comes out of a unit leads back**, at whatever depth. -/
theorem traces_compileNested (room : Nat) (hunit : V s unit text) :
    Traces V (fun s' n => n.Traced (V s')) (c.compileNested room unit text) s := by
  -- by induction on the room, which gives the step for included units
  induction room generalizing unit text s with
  | zero => exact traces_throw trivial
  | succ room ih =>
    rw [compileNested]
    refine (traces_tokensOf hunit).bind fun tokens s₁ h₁ htokens => ?_
    refine traces_record.bind fun _ s₂ h₂ _ => ?_
    have hunit₂ := hV.grows (h₁.trans h₂) _ _ hunit
    refine (traces_parse hunit₂ htokens).bind fun forest s₃ h₃ hforest => ?_
    refine traces_record.bind fun _ s₄ h₄ _ => traces_within hV ?_
    refine traces_chain.bind fun _ s₅ h₅ _ => traces_record.bind fun _ s₆ h₆ _ => ?_
    have hunit₆ := hV.grows (h₃.trans (h₄.trans (h₅.trans h₆))) _ _ hunit₂
    obtain ⟨d, -, htree⟩ := tree?_of_parse hforest
    have hread : forestOf unit text = .ok forest :=
      Fallible.bind_eq_ok_iff.mpr ⟨tokens, htokens, Fallible.mapError_eq_ok_iff.mpr hforest⟩
    rw [htree]
    exact traces_analyzeWith hV (fun _ _ _ h => ih h) hunit₆ ⟨forest, hread, htree⟩

end Units

/-- **Positions lead back to the text.** Let a text be compiled as a unit, whatever units and images
there are. Below, a unit that has been visited is the text itself or a unit of its include tree
whose text has been asked for by the end of the compilation.

* If there is a menu, each symbol is declared in a unit that has been visited, where a whole word
  stands that is its name apart from capitals; and each order stands at the word `make`.
* An error of the scanner names a unit that has been visited, and the character that stands there.
* A syntax error names a unit that has been visited, and stands at one of its tokens, or at the
  start of it if it has none.
* An error in the meaning names a unit that has been visited, and stands at one of its tokens.
* If a name is declared twice, a whole word that is the name apart from capitals stands in both
  places. -/
theorem positions_traced (c : Compiler) (unit : Path) (text : String) (chain : List Path) :
    (∀ m s', c.compileUnit unit text (.ofChain chain) = .ok m s' →
      (∀ x ∈ m.symbols.toList, ∃ inner word, c.Visited unit text s' x.declaredAt.unit inner ∧
        HoldsWord (Text.lines inner) x.declaredAt word ∧ Text.lower word = x.name) ∧
      ∀ i ∈ m.instructions, ∃ inner, c.Visited unit text s' i.declaredAt.unit inner ∧
        HoldsWord (Text.lines inner) i.declaredAt "make") ∧
    (∀ character position s', c.compileUnit unit text (.ofChain chain) =
        .error (.lexical (.unrecognized character position)) s' →
      ∃ inner, c.Visited unit text s' position.unit inner ∧
        HoldsChar (Text.lines inner) position character) ∧
    (∀ e s', c.compileUnit unit text (.ofChain chain) = .error (.syntactic e) s' →
      ∃ inner tokens, c.Visited unit text s' e.position.unit inner ∧
        tokenize e.position.unit (Text.lines inner) = .ok tokens ∧
        ((∃ t ∈ tokens, t.position = e.position) ∨
          tokens = [] ∧ e.position.line = 1 ∧ e.position.column = 1)) ∧
    (∀ e s', c.compileUnit unit text (.ofChain chain) = .error (.semantic e) s' →
      ∃ inner tokens, c.Visited unit text s' e.position.unit inner ∧
        tokenize e.position.unit (Text.lines inner) = .ok tokens ∧
        ∃ t ∈ tokens, t.position = e.position) ∧
    ∀ clash s', c.compileUnit unit text (.ofChain chain) =
        .error (.semantic (.duplicate clash)) s' →
      ∀ p ∈ [clash.first, clash.again], ∃ inner word, c.Visited unit text s' p.unit inner ∧
        HoldsWord (Text.lines inner) p word ∧ Text.lower word = clash.name := by
  have htraces := traces_compileNested (c.trail_visited unit text) c.limit
    (.root : c.Visited unit text (.ofChain chain) unit text)
  refine ⟨fun m s' h => ?_, fun character position s' h => (htraces.of_error _ _ h).2,
    fun e s' h => ?_, fun e s' h => ?_, fun clash s' h p hp => ?_⟩
  · obtain ⟨-, hm⟩ := htraces.of_ok m s' h
    refine ⟨fun x hx => ?_, hm.instructions⟩
    obtain ⟨entry, hentry, rfl⟩ := List.mem_map.mp hx
    obtain ⟨hname, -, word, ⟨inner, hvisited, hword⟩, hlower⟩ := hm.symbols entry hentry
    exact ⟨inner, word, hvisited, hword, hlower.trans hname.symm⟩
  · rcases (htraces.of_error _ _ h).2 with ⟨inner, hvisited, tokens, htokens, ht⟩ |
      ⟨inner, hvisited, htokens, hstart⟩
    · exact ⟨inner, tokens, hvisited, htokens, Or.inl ht⟩
    · exact ⟨inner, [], hvisited, htokens, Or.inr ⟨rfl, hstart⟩⟩
  · obtain ⟨⟨inner, hvisited, tokens, htokens, ht⟩, -⟩ := (htraces.of_error _ _ h).2
    exact ⟨inner, tokens, hvisited, htokens, ht⟩
  · obtain ⟨hfirst, hagain⟩ := (htraces.of_error _ _ h).2.2 clash rfl
    have hname : AtName (c.Visited unit text s') clash.name p := by
      simp only [List.mem_cons, List.not_mem_nil, or_false] at hp
      rcases hp with rfl | rfl
      · exact hfirst
      · exact hagain
    obtain ⟨-, word, ⟨inner, hvisited, hword⟩, hlower⟩ := hname
    exact ⟨inner, word, hvisited, hword, hlower⟩

/-- A text that declares again what a unit that it includes has included. -/
def hamAgain : String := "include 'menu'; define ingredient HAM('ham.png');"

/-- A menu from three units, a name that is declared in two of them, and a text without tokens. -/
theorem positions_traced_pantry :
    (∃ m s', pantry.compileUnit ⟨"main.pf"⟩ pantryOrder (.ofChain []) = .ok m s' ∧
      m.symbols.names = ["ham", "hot"] ∧
      ∀ i ∈ m.instructions, ∃ inner,
        pantry.Visited ⟨"main.pf"⟩ pantryOrder s' i.declaredAt.unit inner ∧
        HoldsWord (Text.lines inner) i.declaredAt "make") ∧
    (∃ s', pantry.compileUnit ⟨"main.pf"⟩ hamAgain (.ofChain []) =
        .error (.semantic (.duplicate ⟨"ham", ⟨1, 35, ⟨"main.pf"⟩⟩, ⟨1, 19, ⟨"base.pf"⟩⟩⟩)) s' ∧
      ∃ inner word, pantry.Visited ⟨"main.pf"⟩ hamAgain s' ⟨"base.pf"⟩ inner ∧
        HoldsWord (Text.lines inner) ⟨1, 19, ⟨"base.pf"⟩⟩ word ∧ Text.lower word = "ham") ∧
    ∃ e s', pantry.compileUnit ⟨"main.pf"⟩ "" (.ofChain []) = .error (.syntactic e) s' ∧
      ∃ inner tokens, pantry.Visited ⟨"main.pf"⟩ "" s' e.position.unit inner ∧
        tokenize e.position.unit (Text.lines inner) = .ok tokens := by
  obtain ⟨hmenu, -, -, -, -⟩ := positions_traced pantry ⟨"main.pf"⟩ pantryOrder []
  obtain ⟨-, -, -, -, htwice⟩ := positions_traced pantry ⟨"main.pf"⟩ hamAgain []
  obtain ⟨-, -, hsyntax, -, -⟩ := positions_traced pantry ⟨"main.pf"⟩ "" []
  refine ⟨?_, ?_, ?_⟩
  · obtain ⟨m, s', hm, hnames, -⟩ := pantryOrder_compiles
    exact ⟨m, s', hm, hnames, (hmenu m s' hm).2⟩
  · have h : Stateful.fails (pantry.compileUnit ⟨"main.pf"⟩ hamAgain (.ofChain [])) (fun e => e =
        .semantic (.duplicate ⟨"ham", ⟨1, 35, ⟨"main.pf"⟩⟩, ⟨1, 19, ⟨"base.pf"⟩⟩⟩)) = true := by
      decide +kernel
    obtain ⟨e, s', he, htest⟩ := Stateful.exists_of_fails h
    obtain rfl := of_decide_eq_true htest
    exact ⟨s', he, htwice _ s' he _ List.mem_cons_self⟩
  · have h : Stateful.fails (pantry.compileUnit ⟨"main.pf"⟩ "" (.ofChain []))
        (fun e => e matches .syntactic _) = true := by
      decide +kernel
    obtain ⟨e, s', he, htest⟩ := Stateful.exists_of_fails h
    cases e with
    | syntactic e =>
      obtain ⟨inner, tokens, hvisited, htokens, -⟩ := hsyntax e s' he
      exact ⟨e, s', he, inner, tokens, hvisited, htokens⟩
    | _ => cases htest

end Compiler

end PizzaLang
