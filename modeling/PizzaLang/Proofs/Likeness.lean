import Mathlib.Data.List.Forall2
import PizzaLang.Proofs.Outcome
import PizzaLang.Proofs.Planting
import PizzaLang.Grammar.Program

/-!
# Readers treat like tokens alike

What readers do depends on the lexemes of the tokens alone; texts and positions only go into
the labels of the nodes. So two lists of tokens that agree in their lexemes are read alike: both
make a program or neither does, and in both cases the forests have the same links.

How much the labels agree depends on how much the tokens do. A `PizzaLang.Likeness` is a
relation between tokens together with a view of labels, such that like tokens make nodes whose
labels look the same. For every likeness, `PizzaLang.Likeness.parse` says that like tokens make
trees that look the same, or errors of one sort about like tokens.

The argument goes through all readers once (`PizzaLang.Reader.agree_program`), and takes as a
parameter what else is compared besides the tokens (`PizzaLang.Cursor.Keeps`): here that forests
look alike, and elsewhere only how many nodes they have.
-/

namespace PizzaLang

/-! ### Forests -/

namespace Tree

variable {α : Type}

mutual

theorem map_map {β γ : Type} (f : α → β) (g : β → γ) (t : Tree α) :
    (t.map f).map g = t.map (g ∘ f) := by
  match t with
  | node a ts => rw [map, map, map, mapAll_mapAll, Function.comp_apply]

theorem mapAll_mapAll {β γ : Type} (f : α → β) (g : β → γ) (ts : List (Tree α)) :
    mapAll g (mapAll f ts) = mapAll (g ∘ f) ts := by
  match ts with
  | [] => rfl
  | t :: ts => rw [mapAll, mapAll, mapAll, map_map, mapAll_mapAll]

end

end Tree

namespace Forest

variable {γ : Type} {view : NodeLabel → γ} {f f' : Forest} {l l' : NodeLabel}

/-- **Forests that look alike**: they have the same links, and labels that look the same. The mark
for the root is no part of it, since it is made last. -/
structure Like (view : NodeLabel → γ) (f f' : Forest) : Prop where
  size : f.size = f'.size
  label : ∀ i, view (f.labelAt i) = view (f'.labelAt i)
  children : ∀ i, f.children i = f'.children i

theorem Like.refl : Like view f f := ⟨rfl, fun _ => rfl, fun _ => rfl⟩

theorem Like.alloc (h : Like view f f') (hl : view l = view l') :
    Like view (f.alloc l).2 (f'.alloc l').2 := by
  have hget : ∀ i, view ((f.alloc l).2.labelAt i) = view ((f'.alloc l').2.labelAt i) ∧
      (f.alloc l).2.children i = (f'.alloc l').2.children i := by
    intro i
    by_cases hi : i = f.size
    · subst hi
      rw [labelAt_alloc_size, children_alloc_size, h.size, labelAt_alloc_size, children_alloc_size]
      exact ⟨hl, rfl⟩
    · have hi' : i ≠ f'.size := h.size ▸ hi
      simp only [labelAt, Forest.children, get_alloc_of_ne hi, get_alloc_of_ne hi']
      exact ⟨h.label i, h.children i⟩
  exact ⟨by rw [size_alloc, size_alloc, h.size], fun i => (hget i).1, fun i => (hget i).2⟩

theorem Like.attach (h : Like view f f') (p c : NodeId) :
    Like view (f.attach p c) (f'.attach p c) := by
  refine ⟨by rw [size_attach, size_attach, h.size], fun i => ?_, fun i => ?_⟩
  · rw [labelAt_attach, labelAt_attach, h.label]
  · rw [children_attach, children_attach, h.size, h.children]

theorem Like.setRoot (h : Like view f f') (id : NodeId) :
    Like view (f.setRoot id) (f'.setRoot id) :=
  ⟨h.size, h.label, h.children⟩

theorem Like.unfoldTo (h : Like view f f') (depth : Nat) (id : NodeId) :
    f.unfoldTo depth id = f'.unfoldTo depth id := by
  induction depth generalizing id with
  | zero => rfl
  | succ depth ih =>
    rw [Forest.unfoldTo, Forest.unfoldTo, h.children, List.map_congr_left fun i _ => ih i]

/-- **Forests that look alike have trees that look the same**, below the same root. -/
theorem Like.tree (h : Like view f f') (hroot : f.root = f'.root) :
    f.tree?.map (Tree.map view) = f'.tree?.map (Tree.map view) := by
  have hview : view ∘ f.labelAt = view ∘ f'.labelAt := funext h.label
  rw [tree?, tree?, hroot]
  cases f'.root with
  | none => rfl
  | some id =>
    refine congrArg some ?_
    change ((f.unfoldTo f.size id).map f.labelAt).map view =
      ((f'.unfoldTo f'.size id).map f'.labelAt).map view
    rw [Tree.map_map, Tree.map_map, hview, h.size, h.unfoldTo]

end Forest

/-! ### Tokens -/

/-- **A likeness**: a relation between tokens that keeps their lexemes, and keeps what a view
shows of the labels that tokens make. -/
structure Likeness {γ : Type} (R : Token → Token → Prop) (view : NodeLabel → γ) : Prop where
  lexeme : ∀ {t u : Token}, R t u → t.lexeme = u.lexeme
  /-- Nodes whose values do not depend on the token. -/
  plain : ∀ {t u : Token}, R t u → ∀ kind value,
    view ⟨kind, value, t.position⟩ = view ⟨kind, value, u.position⟩
  /-- Names and sizes. -/
  name : ∀ {t u : Token}, R t u → t.lexeme ∈ [.literal, .kwBig, .kwMedium, .kwPersonal] →
    ∀ kind, view ⟨kind, Text.lower t.text, t.position⟩ = view ⟨kind, Text.lower u.text, u.position⟩
  /-- Numbers. -/
  number : ∀ {t u : Token}, R t u → t.lexeme ∈ [.number] →
    view ⟨.number, t.text, t.position⟩ = view ⟨.number, u.text, u.position⟩
  /-- Texts in a row. -/
  path : ∀ {t u : Token} {ts us : List Token}, R t u ∧ t.lexeme ∈ [.text] →
    List.Forall₂ (fun t u => R t u ∧ t.lexeme ∈ [.text]) ts us →
    view ⟨.path, String.join ((t :: ts).map (·.text)), t.position⟩ =
      view ⟨.path, String.join ((u :: us).map (·.text)), u.position⟩

/-- Errors of one sort, about like tokens. -/
inductive SyntaxError.Like (R : Token → Token → Prop) : SyntaxError → SyntaxError → Prop
  | expected {lexemes : List Lexeme} {t u : Token} :
      R t u → Like R (.expected lexemes t) (.expected lexemes u)
  | ended {lexemes : List Lexeme} {p q : Position} : Like R (.ended lexemes p) (.ended lexemes q)
  | noStatement {t u : Token} : R t u → Like R (.noStatement t) (.noStatement u)

/-- **What else is kept** besides the likeness of tokens: a relation `S` between cursors that takes
no notice of the tokens, and a relation `I` between nodes, such that nodes that look the same are
made alike and like nodes are attached alike. -/
structure Cursor.Keeps {γ : Type} (view : NodeLabel → γ) (S : Cursor → Cursor → Prop)
    (I : NodeId → NodeId → Prop) : Prop where
  advance : ∀ {s s' : Cursor}, S s s' → ∀ t t' rest rest',
    S (s.advance t rest) (s'.advance t' rest')
  alloc : ∀ {s s' : Cursor} {l l' : NodeLabel}, S s s' → view l = view l' →
    I s.forest.size s'.forest.size ∧
      S { s with forest := (s.forest.alloc l).2 } { s' with forest := (s'.forest.alloc l').2 }
  attach : ∀ {s s' : Cursor} {p p' c c' : NodeId}, S s s' → I p p' → I c c' →
    S { s with forest := s.forest.attach p c } { s' with forest := s'.forest.attach p' c' }

/-- Cursors with like tokens left, and what else is kept. -/
structure Cursor.Like (R : Token → Token → Prop) (S : Cursor → Cursor → Prop)
    (s s' : Cursor) : Prop where
  rest : List.Forall₂ R s.rest s'.rest
  kept : S s s'

/-- Forests that look alike are kept, with the same nodes. -/
theorem Forest.keeps_like {γ : Type} {view : NodeLabel → γ} :
    Cursor.Keeps view (fun s s' => Forest.Like view s.forest s'.forest) Eq := by
  refine ⟨fun h _ _ _ _ => h, fun h hl => ⟨h.size, h.alloc hl⟩, ?_⟩
  rintro s s' p _ c _ h rfl rfl
  exact h.attach p c

namespace Reader

variable {α α' β β' γ : Type} {R : Token → Token → Prop} {S : Cursor → Cursor → Prop}
  {I : NodeId → NodeId → Prop} {view : NodeLabel → γ}

/-- **Outcomes that agree**: two successes with related results, or two failures with errors of
one sort. The cursors are alike in both cases. -/
def Agree (R : Token → Token → Prop) (S : Cursor → Cursor → Prop) (Q : α → α' → Prop) :
    EStateM.Result SyntaxError Cursor α → EStateM.Result SyntaxError Cursor α' → Prop
  | .ok a s, .ok a' s' => Q a a' ∧ s.Like R S s'
  | .error e s, .error e' s' => SyntaxError.Like R e e' ∧ s.Like R S s'
  | _, _ => False

/-- **Readers that agree** on all cursors that are alike. -/
def Agrees (R : Token → Token → Prop) (S : Cursor → Cursor → Prop) (Q : α → α' → Prop)
    (r : Reader α) (r' : Reader α') : Prop :=
  ∀ ⦃s s' : Cursor⦄, s.Like R S s' → Agree R S Q (r s) (r' s')

/-! ### Single steps -/

section Steps

variable {Q : α → α' → Prop} {r : Reader α} {r' : Reader α'}

theorem Agrees.bind {Q' : β → β' → Prop} {k : α → Reader β} {k' : α' → Reader β'}
    (h : Agrees R S Q r r') (hk : ∀ a a', Q a a' → Agrees R S Q' (k a) (k' a')) :
    Agrees R S Q' (r >>= k) (r' >>= k') := by
  intro s s' hs
  have hr := h hs
  cases hrs : r s with
  | ok a t =>
    cases hrs' : r' s' with
    | ok a' t' =>
      rw [hrs, hrs'] at hr
      rw [Stateful.bind_of_ok hrs, Stateful.bind_of_ok hrs']
      exact hk a a' hr.1 hr.2
    | error e' t' =>
      rw [hrs, hrs'] at hr
      exact hr.elim
  | error e t =>
    cases hrs' : r' s' with
    | ok a' t' =>
      rw [hrs, hrs'] at hr
      exact hr.elim
    | error e' t' =>
      rw [hrs, hrs'] at hr
      rw [Stateful.bind_of_error hrs, Stateful.bind_of_error hrs']
      exact hr

theorem agrees_pure {a : α} {a' : α'} (h : Q a a') : Agrees R S Q (pure a) (pure a') :=
  fun _ _ hs => ⟨h, hs⟩

theorem agrees_seesAny : Agrees R S Eq seesAny seesAny := by
  rintro ⟨unit, rest, last, forest⟩ ⟨unit', rest', last', forest'⟩ ⟨hrest, hkept⟩
  refine ⟨?_, hrest, hkept⟩
  cases hrest with
  | nil => rfl
  | cons htu hrest => rfl

variable (hS : Cursor.Keeps view S I)

include hS

theorem agrees_next {lexemes : List Lexeme} : Agrees R S R (next lexemes) (next lexemes) := by
  rintro ⟨unit, rest, last, forest⟩ ⟨unit', rest', last', forest'⟩ ⟨hrest, hkept⟩
  cases hrest with
  | nil => exact ⟨.ended, .nil, hkept⟩
  | cons htu hrest => exact ⟨htu, hrest, hS.advance hkept _ _ _ _⟩

theorem agrees_leaf {kind kind' : NodeKind} {value value' : String} {position position' : Position}
    (h : view ⟨kind, value, position⟩ = view ⟨kind', value', position'⟩) :
    Agrees R S I (leaf kind value position) (leaf kind' value' position') := by
  rintro s s' ⟨hrest, hkept⟩
  exact ⟨(hS.alloc hkept h).1, hrest, (hS.alloc hkept h).2⟩

theorem agrees_attach {p p' c c' : NodeId} (hp : I p p') (hc : I c c') :
    Agrees R S Eq (attach p c) (attach p' c') := by
  rintro s s' ⟨hrest, hkept⟩
  exact ⟨rfl, hrest, hS.attach hkept hp hc⟩

/-- Attaching what a reader makes. -/
theorem agrees_attaching {r r' : Reader NodeId} (h : Agrees R S I r r') {p p' : NodeId}
    (hp : I p p') : Agrees R S Eq (do attach p (← r)) (do attach p' (← r')) :=
  h.bind fun _ _ hchild => agrees_attach hS hp hchild

variable (hR : Likeness R view) {lexemes : List Lexeme}

include hR

theorem agrees_expect :
    Agrees R S (fun t u => R t u ∧ t.lexeme ∈ lexemes) (expect lexemes) (expect lexemes) := by
  rintro ⟨unit, rest, last, forest⟩ ⟨unit', rest', last', forest'⟩ ⟨hrest, hkept⟩
  cases hrest with
  | nil => exact ⟨.ended, .nil, hkept⟩
  | @cons t u ts us htu hrest =>
    by_cases ht : t.isAny lexemes = true
    · have hu : u.isAny lexemes = true := by rwa [Token.isAny, ← hR.lexeme htu]
      simp only [expect, ht, hu, if_true]
      exact ⟨⟨htu, by simpa [Token.isAny] using ht⟩, hrest, hS.advance hkept _ _ _ _⟩
    · have hu : ¬u.isAny lexemes = true := by rwa [Token.isAny, ← hR.lexeme htu]
      simp only [expect, ht, hu]
      exact ⟨.expected htu, .cons htu hrest, hkept⟩

theorem agrees_accept :
    Agrees R S (Option.Rel fun t u => R t u ∧ t.lexeme ∈ lexemes) (accept lexemes)
      (accept lexemes) := by
  rintro ⟨unit, rest, last, forest⟩ ⟨unit', rest', last', forest'⟩ ⟨hrest, hkept⟩
  cases hrest with
  | nil => exact ⟨.none, .nil, hkept⟩
  | @cons t u ts us htu hrest =>
    by_cases ht : t.isAny lexemes = true
    · have hu : u.isAny lexemes = true := by rwa [Token.isAny, ← hR.lexeme htu]
      simp only [accept, ht, hu, if_true]
      exact ⟨.some ⟨htu, by simpa [Token.isAny] using ht⟩, hrest, hS.advance hkept _ _ _ _⟩
    · have hu : ¬u.isAny lexemes = true := by rwa [Token.isAny, ← hR.lexeme htu]
      simp only [accept, ht, hu]
      exact ⟨.none, .cons htu hrest, hkept⟩

theorem agrees_optional {act act' : Token → Reader Unit} {Q : Unit → Unit → Prop} (hnone : Q () ())
    (hact : ∀ t u, R t u → Agrees R S Q (act t) (act' u)) :
    Agrees R S Q (optional lexemes act) (optional lexemes act') := by
  refine (agrees_accept hS hR).bind ?_
  rintro _ _ (⟨htu, -⟩ | _)
  · exact hact _ _ htu
  · exact agrees_pure hnone

omit hS in
theorem agrees_sees : Agrees R S Eq (sees lexemes) (sees lexemes) := by
  rintro ⟨unit, rest, last, forest⟩ ⟨unit', rest', last', forest'⟩ ⟨hrest, hkept⟩
  refine ⟨?_, hrest, hkept⟩
  cases hrest with
  | nil => rfl
  | cons htu hrest =>
    simp only [List.head?_cons, Option.any_some, Token.isAny, hR.lexeme htu]

end Steps

/-! ### Loops -/

section Loops

variable {Q : α → α' → Prop} {item : Reader α} {item' : Reader α'}

theorem agrees_collectTo {more : Reader Bool} (hitem : Agrees R S Q item item')
    (hmore : Agrees R S Eq more more) {rounds rounds' : List Token}
    (h : rounds.length = rounds'.length) :
    Agrees R S (fun p p' => Q p.1 p'.1 ∧ List.Forall₂ Q p.2 p'.2) (collectTo item more rounds)
      (collectTo item' more rounds') := by
  induction rounds generalizing rounds' with
  | nil =>
    obtain rfl : rounds' = [] := List.length_eq_zero_iff.mp h.symm
    exact hitem.bind fun a a' ha => agrees_pure ⟨ha, .nil⟩
  | cons x rounds ih =>
    obtain ⟨x', rounds', rfl⟩ := List.exists_cons_of_length_eq_add_one h.symm
    refine hitem.bind fun a a' ha => hmore.bind ?_
    rintro b _ rfl
    cases b with
    | false => exact agrees_pure ⟨ha, .nil⟩
    | true =>
      refine (ih (Nat.succ.inj h)).bind fun p p' hp => ?_
      exact agrees_pure ⟨ha, .cons hp.1 hp.2⟩

theorem agrees_collect {more : Reader Bool} (hitem : Agrees R S Q item item')
    (hmore : Agrees R S Eq more more) :
    Agrees R S (fun p p' => Q p.1 p'.1 ∧ List.Forall₂ Q p.2 p'.2) (collect item more)
      (collect item' more) :=
  fun _ _ hs => agrees_collectTo hitem hmore hs.rest.length_eq hs

variable (hS : Cursor.Keeps view S I) (hR : Likeness R view)

include hS hR

theorem agrees_binary {t u : Token} (h : R t u) {left left' right right' : NodeId}
    (hleft : I left left') (hright : I right right') :
    Agrees R S I (binary t left right) (binary u left' right') := by
  rw [binary, binary, hR.lexeme h]
  refine (agrees_leaf hS (hR.plain h _ _)).bind fun node node' hnode => ?_
  exact (agrees_attach hS hnode hleft).bind fun _ _ _ =>
    (agrees_attach hS hnode hright).bind fun _ _ _ => agrees_pure hnode

theorem agrees_chainTo {operand : Reader NodeId} {operators : List Lexeme}
    (h : Agrees R S I operand operand) {rounds rounds' : List Token}
    (hrounds : rounds.length = rounds'.length) :
    Agrees R S I (chainTo operand operators rounds) (chainTo operand operators rounds') := by
  induction rounds generalizing rounds' with
  | nil =>
    obtain rfl : rounds' = [] := List.length_eq_zero_iff.mp hrounds.symm
    exact h
  | cons x rounds ih =>
    obtain ⟨x', rounds', rfl⟩ := List.exists_cons_of_length_eq_add_one hrounds.symm
    refine h.bind fun left left' hleft => (agrees_accept hS hR).bind ?_
    rintro _ _ (⟨htu, -⟩ | _)
    · exact (ih (Nat.succ.inj hrounds)).bind fun right right' hright =>
        agrees_binary hS hR htu hleft hright
    · exact agrees_pure hleft

theorem agrees_chain {operand : Reader NodeId} {operators : List Lexeme}
    (h : Agrees R S I operand operand) :
    Agrees R S I (chain operand operators) (chain operand operators) :=
  fun _ _ hs => agrees_chainTo hS hR h hs.rest.length_eq hs

end Loops

/-! ### The readers of the grammar -/

section Grammar

variable (hS : Cursor.Keeps view S I) (hR : Likeness R view)

include hS hR

theorem agrees_name {kind : NodeKind} : Agrees R S I (name kind) (name kind) := by
  refine (agrees_expect hS hR).bind fun t u htu => agrees_leaf hS (hR.name htu.1 ?_ kind)
  exact List.mem_append_left [.kwBig, .kwMedium, .kwPersonal] htu.2

theorem agrees_number : Agrees R S I number number :=
  (agrees_expect hS hR).bind fun _ _ htu => agrees_leaf hS (hR.number htu.1 htu.2)

theorem agrees_expression : Agrees R S I expression expression :=
  agrees_chain hS hR (agrees_chain hS hR (agrees_number hS hR))

theorem agrees_text : Agrees R S I text text := by
  have hquoted : Agrees R S (fun t u => R t u ∧ t.lexeme ∈ [.text]) quoted quoted :=
    (agrees_expect hS hR).bind fun _ _ _ => (agrees_expect hS hR).bind fun _ _ htu =>
      (agrees_expect hS hR).bind fun _ _ _ => agrees_pure htu
  refine (agrees_collect hquoted (agrees_sees hR)).bind ?_
  rintro ⟨first, others⟩ ⟨first', others'⟩ ⟨hfirst, hothers⟩
  exact agrees_leaf hS (hR.path hfirst hothers)

theorem agrees_use : Agrees R S I use use := by
  refine (agrees_name hS hR).bind fun ingredient ingredient' hingredient => ?_
  refine (agrees_expect hS hR).bind fun _ _ _ => (agrees_expression hS hR).bind ?_
  intro quantity quantity' hquantity
  exact (agrees_attach hS hingredient hquantity).bind fun _ _ _ =>
    (agrees_expect hS hR).bind fun _ _ _ => agrees_pure hingredient

theorem agrees_acceptAnd : Agrees R S Eq acceptAnd acceptAnd := by
  refine (agrees_accept hS hR).bind ?_
  rintro _ _ (_ | _)
  · exact agrees_pure rfl
  · exact agrees_pure rfl

theorem agrees_resizing {t u : Token} (h : R t u) : Agrees R S I (resizing t) (resizing u) := by
  refine (agrees_leaf hS (hR.plain h _ _)).bind fun resize resize' hresize => ?_
  refine (agrees_number hS hR).bind fun side side' hside => ?_
  exact (agrees_attach hS hresize hside).bind fun _ _ _ => agrees_pure hresize

theorem agrees_ingredient {t u : Token} (h : R t u) :
    Agrees R S I (ingredient t) (ingredient u) := by
  refine (agrees_leaf hS (hR.plain h _ _)).bind fun ingredient ingredient' hingredient => ?_
  refine (agrees_name hS hR).bind fun name name' hname => ?_
  refine (agrees_attach hS hingredient hname).bind fun _ _ _ => ?_
  refine (agrees_expect hS hR).bind fun _ _ _ => ?_
  refine (agrees_text hS hR).bind fun path path' hpath => ?_
  refine (agrees_attach hS hname hpath).bind fun _ _ _ => ?_
  refine (agrees_expect hS hR).bind fun _ _ _ => ?_
  refine (agrees_optional hS hR rfl fun _ _ htu => ?_).bind fun _ _ (_ : () = ()) => ?_
  · exact agrees_attaching hS (agrees_resizing hS hR htu) hingredient
  · exact (agrees_expect hS hR).bind fun _ _ _ => agrees_pure hingredient

theorem agrees_specialty {t u : Token} (h : R t u) :
    Agrees R S I (specialty t) (specialty u) := by
  have hmore : Agrees R S Eq (do return !(← sees [.closeBrace]))
      (do return !(← sees [.closeBrace])) :=
    (agrees_sees hR).bind fun b b' hb => agrees_pure (congrArg _ hb)
  have hportion : ∀ name name', I name name' → Agrees R S Eq (portion name) (portion name') := by
    intro name name' hname
    refine (agrees_use hS hR).bind fun portion portion' hportion => ?_
    exact (agrees_attach hS hname hportion).bind fun _ _ _ =>
      (agrees_expect hS hR).bind fun _ _ _ => agrees_pure rfl
  refine (agrees_leaf hS (hR.plain h _ _)).bind fun specialty specialty' hspecialty => ?_
  refine (agrees_name hS hR).bind fun name name' hname => ?_
  refine (agrees_attach hS hspecialty hname).bind fun _ _ _ => ?_
  refine (agrees_expect hS hR).bind fun _ _ _ => ?_
  refine (agrees_collect (hportion name name' hname) hmore).bind fun _ _ _ => ?_
  exact (agrees_expect hS hR).bind fun _ _ _ => agrees_pure hspecialty

theorem agrees_definition {t u : Token} (h : R t u) :
    Agrees R S I (definition t) (definition u) := by
  refine (agrees_leaf hS (hR.plain h _ _)).bind fun define define' hdefine => ?_
  refine (agrees_expect hS hR).bind fun kind kind' hkind => ?_
  dsimp only
  rw [hR.lexeme hkind.1]
  split
  · refine (agrees_ingredient hS hR hkind.1).bind fun defined defined' hdefined => ?_
    exact (agrees_attach hS hdefine hdefined).bind fun _ _ _ => agrees_pure hdefine
  · refine (agrees_specialty hS hR hkind.1).bind fun defined defined' hdefined => ?_
    exact (agrees_attach hS hdefine hdefined).bind fun _ _ _ => agrees_pure hdefine

theorem agrees_add {t u : Token} (h : R t u) : Agrees R S I (add t) (add u) := by
  refine (agrees_leaf hS (hR.plain h _ _)).bind fun clause clause' hclause => ?_
  refine (agrees_collect (agrees_attaching hS (agrees_use hS hR) hclause)
    (agrees_acceptAnd hS hR)).bind ?_
  exact fun _ _ _ => agrees_pure hclause

theorem agrees_specialties {t u : Token} (h : R t u) :
    Agrees R S I (specialties t) (specialties u) := by
  refine (agrees_leaf hS (hR.plain h _ _)).bind fun clause clause' hclause => ?_
  refine (agrees_collect (agrees_attaching hS (agrees_name hS hR) hclause)
    (agrees_acceptAnd hS hR)).bind ?_
  exact fun _ _ _ => agrees_pure hclause

theorem agrees_save {t u : Token} (h : R t u) : Agrees R S I (save t) (save u) := by
  refine (agrees_leaf hS (hR.plain h _ _)).bind fun clause clause' hclause => ?_
  refine (agrees_expect hS hR).bind fun _ _ _ => (agrees_text hS hR).bind fun name name' hname => ?_
  exact (agrees_attach hS hclause hname).bind fun _ _ _ => agrees_pure hclause

theorem agrees_toppings {pizza pizza' : NodeId} (hpizza : I pizza pizza') :
    Agrees R S Eq (toppings pizza) (toppings pizza') := by
  refine (agrees_expect hS hR).bind fun first first' hfirst => ?_
  rw [hR.lexeme hfirst.1]
  split
  · exact agrees_attaching hS (agrees_add hS hR hfirst.1) hpizza
  · refine (agrees_specialties hS hR hfirst.1).bind fun clause clause' hclause => ?_
    refine (agrees_attach hS hpizza hclause).bind fun _ _ _ => ?_
    refine agrees_optional hS hR rfl fun _ _ htu => ?_
    exact agrees_attaching hS (agrees_add hS hR htu) hpizza

theorem agrees_pizza {t u : Token} (h : R t u) : Agrees R S I (pizza t) (pizza u) := by
  refine (agrees_leaf hS (hR.plain h _ _)).bind fun pizza pizza' hpizza => ?_
  refine (agrees_toppings hS hR hpizza).bind fun _ _ _ => ?_
  refine (agrees_optional hS hR rfl fun _ _ htu => ?_).bind fun _ _ (_ : () = ()) =>
    agrees_pure hpizza
  exact agrees_attaching hS (agrees_save hS hR htu) hpizza

theorem agrees_make {t u : Token} (h : R t u) : Agrees R S I (make t) (make u) := by
  refine (agrees_leaf hS (hR.plain h _ _)).bind fun make make' hmake => ?_
  refine (agrees_expect hS hR).bind fun size size' hsize => ?_
  refine (agrees_leaf hS (hR.name hsize.1 (List.mem_cons_of_mem _ hsize.2) _)).bind ?_
  intro node node' hnode
  refine (agrees_attach hS hmake hnode).bind fun _ _ _ => ?_
  refine (agrees_expect hS hR).bind fun t u htu => ?_
  refine (agrees_pizza hS hR htu.1).bind fun body body' hbody => ?_
  exact (agrees_attach hS hnode hbody).bind fun _ _ _ =>
    (agrees_expect hS hR).bind fun _ _ _ => agrees_pure hmake

theorem agrees_inclusion {t u : Token} (h : R t u) :
    Agrees R S I (inclusion t) (inclusion u) := by
  refine (agrees_leaf hS (hR.plain h _ _)).bind fun inclusion inclusion' hinclusion => ?_
  refine (agrees_text hS hR).bind fun path path' hpath => ?_
  exact (agrees_attach hS hinclusion hpath).bind fun _ _ _ =>
    (agrees_expect hS hR).bind fun _ _ _ => agrees_pure hinclusion

theorem agrees_statement : Agrees R S I statement statement := by
  refine (agrees_next hS).bind fun t u htu => ?_
  have hlexeme := hR.lexeme htu
  cases ht : t.lexeme
  all_goals rw [← hlexeme, ht]
  case kwInclude => exact agrees_inclusion hS hR htu
  case kwDefine => exact agrees_definition hS hR htu
  case kwMake => exact agrees_make hS hR htu
  all_goals exact fun _ _ hs => ⟨.noStatement htu, hs⟩

/-- A program is read alike; its root shows what the view lets through of the unit. -/
theorem agree_program {s s' : Cursor} (hs : s.Like R S s')
    (hroot : view ⟨.program, s.unit.text, .start s.unit⟩ =
      view ⟨.program, s'.unit.text, .start s'.unit⟩) :
    Agree R S I (program s) (program s') := by
  have hbody : Agrees R S I
      (do
        let root ← leaf .program s.unit.text (.start s.unit)
        let _ ← collect (do attach root (← statement)) seesAny
        return root)
      (do
        let root ← leaf .program s'.unit.text (.start s'.unit)
        let _ ← collect (do attach root (← statement)) seesAny
        return root) := by
    refine (agrees_leaf hS hroot).bind fun root root' hroot => ?_
    refine (agrees_collect (agrees_attaching hS (agrees_statement hS hR) hroot)
      agrees_seesAny).bind ?_
    exact fun _ _ _ => agrees_pure hroot
  exact hbody hs

end Grammar

end Reader

/-! ### Programs -/

/-- **Like tokens make like programs**: either both lists make a forest, and the trees look the
same, or both fail, and in the same way. -/
theorem Likeness.parse {γ : Type} {R : Token → Token → Prop} {view : NodeLabel → γ}
    (hR : Likeness R view) {unit unit' : Path} {tokens tokens' : List Token}
    (h : List.Forall₂ R tokens tokens')
    (hroot : view ⟨.program, unit.text, .start unit⟩ = view ⟨.program, unit'.text, .start unit'⟩) :
    (∃ f f', PizzaLang.parse unit tokens = .ok f ∧ PizzaLang.parse unit' tokens' = .ok f' ∧
      f.tree?.map (Tree.map view) = f'.tree?.map (Tree.map view)) ∨
    (∃ e e', PizzaLang.parse unit tokens = .error e ∧ PizzaLang.parse unit' tokens' = .error e' ∧
      SyntaxError.Like R e e') := by
  have hprogram : Reader.Agree R (fun s s' => Forest.Like view s.forest s'.forest) Eq
      (Reader.program (.ofTokens unit tokens)) (Reader.program (.ofTokens unit' tokens')) :=
    Reader.agree_program Forest.keeps_like hR ⟨h, Forest.Like.refl⟩ hroot
  simp only [PizzaLang.parse, Cursor.readProgram]
  cases hr : Reader.program (.ofTokens unit tokens) with
  | ok root s =>
    cases hr' : Reader.program (.ofTokens unit' tokens') with
    | ok root' s' =>
      rw [hr, hr'] at hprogram
      obtain ⟨rfl, hs⟩ := hprogram
      exact Or.inl ⟨_, _, rfl, rfl, (hs.kept.setRoot root).tree rfl⟩
    | error e' s' =>
      rw [hr, hr'] at hprogram
      exact hprogram.elim
  | error e s =>
    cases hr' : Reader.program (.ofTokens unit' tokens') with
    | ok root' s' =>
      rw [hr, hr'] at hprogram
      exact hprogram.elim
    | error e' s' =>
      rw [hr, hr'] at hprogram
      exact Or.inr ⟨e, e', rfl, rfl, hprogram.1⟩

end PizzaLang
