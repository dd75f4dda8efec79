import PizzaLang.Proofs.Planting
import PizzaLang.Proofs.Recognition

/-!
# What has a derivation is read

The converse of `PizzaLang.Proofs.Recognition`. From tokens that begin with those of a
derivation a reader succeeds, takes exactly these, and plants the tree of the derivation
(`PizzaLang.Reader.Plants`), or hangs its trees from a node that is there already
(`PizzaLang.Reader.Hangs`). What follows the derivation must not be able to go on it.

Of a cursor only the tokens that are left and the forest matter (`PizzaLang.Cursor.At`).
-/

namespace PizzaLang

/-- A cursor has these tokens left and this forest. -/
structure Cursor.At (s : Cursor) (w : List Token) (f : Forest) : Prop where
  rest : s.rest = w
  forest : s.forest = f

namespace Reader

open PizzaLang.Derivation PizzaLang.Forest

variable {α β δ : Type} {s : Cursor} {w : List Token} {f : Forest} {p : Nat}

/-! ### Running a reader -/

/-- **A reader succeeds**, and its result and the cursor it leaves satisfy a condition. -/
def Runs (r : Reader α) (s : Cursor) (Q : α → Cursor → Prop) : Prop :=
  ∃ a s', r s = .ok a s' ∧ Q a s'

section Steps

variable {r : Reader α} {Q : α → Cursor → Prop}

theorem Runs.mono (h : r.Runs s Q) {Q' : α → Cursor → Prop} (himp : ∀ a s', Q a s' → Q' a s') :
    r.Runs s Q' := by
  obtain ⟨a, s', hr, hQ⟩ := h
  exact ⟨a, s', hr, himp a s' hQ⟩

theorem runs_bind {k : α → Reader β} {Q : β → Cursor → Prop}
    (h : r.Runs s fun a s' => (k a).Runs s' Q) : (r >>= k).Runs s Q := by
  obtain ⟨a, s', hr, b, s'', hk, hQ⟩ := h
  exact ⟨b, s'', (Stateful.bind_of_ok hr).trans hk, hQ⟩

theorem runs_pure {a : α} (h : Q a s) : (pure a : Reader α).Runs s Q :=
  ⟨a, s, rfl, h⟩

theorem runs_expect {lexemes : List Lexeme} {Q : Token → Cursor → Prop} {t : Leaf lexemes}
    (hs : s.At (t.1 :: w) f) (h : ∀ s', s'.At w f → Q t.1 s') : (expect lexemes).Runs s Q :=
  ⟨t.1, _, expect_of_mem hs.rest t.2, h _ ⟨rfl, hs.forest⟩⟩

theorem runs_accept {lexemes : List Lexeme} {Q : Option Token → Cursor → Prop} {t : Leaf lexemes}
    (hs : s.At (t.1 :: w) f) (h : ∀ s', s'.At w f → Q (some t.1) s') :
    (accept lexemes).Runs s Q :=
  ⟨some t.1, _, accept_of_mem hs.rest t.2, h _ ⟨rfl, hs.forest⟩⟩

theorem runs_accept_none {lexemes : List Lexeme} {Q : Option Token → Cursor → Prop}
    (hs : s.At w f) (hw : ¬Ahead lexemes w) (h : Q none s) : (accept lexemes).Runs s Q :=
  ⟨none, s, accept_of_not_ahead (hs.rest ▸ hw), h⟩

theorem runs_leaf {kind : NodeKind} {value : String} {position : Position}
    {Q : NodeId → Cursor → Prop} (hs : s.At w f)
    (h : ∀ s', s'.At w (f.alloc ⟨kind, value, position⟩).2 → Q f.size s') :
    (leaf kind value position).Runs s Q := by
  obtain ⟨rfl, rfl⟩ := hs
  exact ⟨_, _, rfl, h _ ⟨rfl, rfl⟩⟩

theorem runs_attach {parent child : NodeId} {Q : Unit → Cursor → Prop} (hs : s.At w f)
    (h : ∀ s', s'.At w (f.attach parent child) → Q () s') : (attach parent child).Runs s Q := by
  obtain ⟨rfl, rfl⟩ := hs
  exact ⟨_, _, rfl, h _ ⟨rfl, rfl⟩⟩

theorem runs_name {kind : NodeKind} {Q : NodeId → Cursor → Prop} {t : Leaf [.literal]}
    (hs : s.At (t.1 :: w) f)
    (h : ∀ s', s'.At w (f.alloc ⟨kind, Text.lower t.1.text, t.1.position⟩).2 → Q f.size s') :
    (name kind).Runs s Q :=
  runs_bind (runs_expect hs fun _ hs₁ => runs_leaf hs₁ h)

end Steps

/-! ### Planting and hanging -/

/-- **A reader plants a tree** when it reads the given tokens, provided that the next token is
none of some lexemes. -/
def Plants (r : Reader NodeId) (ts : List Token) (stop : List Lexeme) (t : SyntaxTree) : Prop :=
  ∀ ⦃s : Cursor⦄ ⦃w : List Token⦄ ⦃f : Forest⦄, s.At (ts ++ w) f → ¬Ahead stop w →
    r.Runs s fun id s' => ∃ f', s'.At w f' ∧ Planted f f' id t

/-- **A reader hangs trees** from a node when it reads the given tokens, provided that the next
token is none of some lexemes. -/
def Hangs (r : Reader α) (p : Nat) (ts : List Token) (stop : List Lexeme)
    (trees : List SyntaxTree) : Prop :=
  ∀ ⦃s : Cursor⦄ ⦃w : List Token⦄ ⦃f : Forest⦄, s.At (ts ++ w) f → ¬Ahead stop w → p < f.size →
    r.Runs s fun _ s' => ∃ f', s'.At w f' ∧ Hung f f' p trees

/-- A tree that is planted can be hung. -/
theorem Plants.hangs {r : Reader NodeId} {ts : List Token} {stop : List Lexeme} {t : SyntaxTree}
    (h : Plants r ts stop t) : Hangs (do attach p (← r)) p ts stop [t] := by
  intro s w f hs hw hp
  refine runs_bind ((h hs hw).mono ?_)
  rintro id s₁ ⟨f₁, hs₁, hid⟩
  exact runs_attach hs₁ fun s₂ hs₂ => ⟨_, hs₂, hid.attach hp⟩

/-- A phrase that may be missing hangs its tree if it is there. -/
theorem hangs_optional {lexemes stop : List Lexeme} {act : Token → Reader Unit}
    {tokens : δ → List Token} {tree : δ → SyntaxTree}
    (h : ∀ d, ∃ (keyword : Leaf lexemes) (body : List Token), tokens d = keyword.1 :: body ∧
      Hangs (act keyword.1) p body stop [tree d]) (o : Option δ) :
    Hangs (optional lexemes act) p (o.toList.flatMap tokens) (lexemes ++ stop)
      (o.toList.map tree) := by
  intro s w f hs hw hp
  cases o with
  | none =>
    have hnone : ¬Ahead lexemes w := fun h => hw (h.mono fun _ => List.mem_append_left _)
    exact runs_bind (runs_accept_none hs hnone (runs_pure ⟨f, hs, Hung.refl⟩))
  | some d =>
    obtain ⟨keyword, body, htokens, hact⟩ := h d
    rw [Option.toList_some, List.flatMap_singleton, htokens] at hs
    have hstop : ¬Ahead stop w := fun h => hw (h.mono fun _ => List.mem_append_right _)
    exact runs_bind (runs_accept hs fun s₁ hs₁ => hact hs₁ hstop hp)

/-- **Items in a row hang their trees** in order. What comes next tells `more` whether there is
another item. -/
theorem runs_sequence {item : Reader α} {more : Reader Bool} {tokens : δ → List Token}
    {tree : δ → SyntaxTree} {E : List Token → Prop} (hconsumes : Consumes item)
    (hreturns : Returns more) (hitem : ∀ d, Hangs item p (tokens d) [] [tree d])
    (hmore : ∀ d (s : Cursor) w, s.rest = tokens d ++ w → more s = .ok true s)
    (hend : ∀ s : Cursor, E s.rest → more s = .ok false s) {d : δ} {ds : List δ}
    (hs : s.At ((d :: ds).flatMap tokens ++ w) f) (hw : E w) (hp : p < f.size) :
    (collect item more).Runs s fun _ s' => ∃ f', s'.At w f' ∧ Hung f f' p ((d :: ds).map tree) := by
  induction ds generalizing d s f with
  | nil =>
    rw [collect_eq hconsumes hreturns]
    rw [List.flatMap_singleton] at hs
    refine runs_bind ((hitem d hs not_ahead_none hp).mono ?_)
    rintro a s₁ ⟨f₁, hs₁, hhung⟩
    exact runs_bind ⟨false, s₁, hend s₁ (hs₁.rest ▸ hw), runs_pure ⟨f₁, hs₁, hhung⟩⟩
  | cons e es ih =>
    rw [collect_eq hconsumes hreturns]
    rw [List.flatMap_cons, List.append_assoc] at hs
    refine runs_bind ((hitem d hs not_ahead_none hp).mono ?_)
    rintro a s₁ ⟨f₁, hs₁, hhung⟩
    have htrue : more s₁ = .ok true s₁ := by
      refine hmore e s₁ (es.flatMap tokens ++ w) ?_
      rw [hs₁.rest, List.flatMap_cons, List.append_assoc]
    -- another item follows, and the node that all of them hang from is still there
    refine runs_bind ⟨true, s₁, htrue, runs_bind ((ih hs₁ (hhung.lt_size hp)).mono ?_)⟩
    rintro others s₂ ⟨f₂, hs₂, hhung₂⟩
    exact runs_pure ⟨f₂, hs₂, hhung.trans hhung₂ hp⟩

/-- **Items joined by the word for it** hang their trees in order. -/
theorem hangs_joined {item : Reader α} {tokens : δ → List Token} {tree : δ → SyntaxTree}
    (hconsumes : Consumes item) (hitem : ∀ d, Hangs item p (tokens d) [] [tree d]) (d : δ)
    (others : List (Leaf [.kwAnd] × δ)) :
    Hangs (collect item acceptAnd) p
      (tokens d ++ others.flatMap fun q => q.1.1 :: tokens q.2) [.kwAnd]
      (tree d :: others.map fun q => tree q.2) := by
  have hreturns : Returns acceptAnd := by
    intro s b s' h
    obtain ⟨o, t, hr, ho⟩ := Stateful.bind_eq_ok_iff.mp h
    obtain ⟨-, rfl⟩ := Stateful.pure_eq_ok_iff.mp ho
    exact returns_accept s o t hr
  intro s w f hs hw hp
  induction others generalizing d s f with
  | nil =>
    rw [collect_eq hconsumes hreturns]
    rw [List.flatMap_nil, List.append_nil] at hs
    refine runs_bind ((hitem d hs not_ahead_none hp).mono ?_)
    rintro a s₁ ⟨f₁, hs₁, hhung⟩
    refine runs_bind (runs_bind (runs_accept_none hs₁ hw (runs_pure ?_)))
    exact runs_pure ⟨f₁, hs₁, hhung⟩
  | cons q others ih =>
    obtain ⟨word, e⟩ := q
    rw [collect_eq hconsumes hreturns]
    rw [List.flatMap_cons, List.append_assoc] at hs
    refine runs_bind ((hitem d hs not_ahead_none hp).mono ?_)
    rintro a s₁ ⟨f₁, hs₁, hhung⟩
    refine runs_bind (runs_bind (runs_accept hs₁ fun s₂ hs₂ => runs_pure ?_))
    refine runs_bind ((ih e hs₂ (hhung.lt_size hp)).mono ?_)
    rintro _ s₃ ⟨f₃, hs₃, hhung₃⟩
    exact runs_pure ⟨f₃, hs₃, hhung.trans hhung₃ hp⟩

/-- **A chain plants the nodes of its operators above those of its operands.** -/
theorem plants_chain {operand : Reader NodeId} {operators stop : List Lexeme}
    {tokens : δ → List Token} {tree : δ → SyntaxTree} (hconsumes : Consumes operand)
    (hoperand : ∀ d, Plants operand (tokens d) stop (tree d)) (hdis : ∀ l ∈ operators, l ∉ stop)
    (c : Chain operators δ) :
    Plants (chain operand operators) (c.tokens tokens) (operators ++ stop) (c.tree tree) := by
  intro s w f hs hw
  have hstop : ¬Ahead stop w := fun h => hw (h.mono fun _ => List.mem_append_right _)
  have hoperators : ¬Ahead operators w := fun h => hw (h.mono fun _ => List.mem_append_left _)
  induction c generalizing s f with
  | last d =>
    rw [chain_eq hconsumes]
    refine runs_bind ((hoperand d hs hstop).mono ?_)
    rintro left s₁ ⟨f₁, hs₁, hleft⟩
    exact runs_bind (runs_accept_none hs₁ hoperators (runs_pure ⟨f₁, hs₁, hleft⟩))
  | link d operator c ih =>
    rw [chain_eq hconsumes]
    rw [Chain.tokens, List.append_assoc] at hs
    refine runs_bind ((hoperand d hs (operator.not_ahead hdis)).mono ?_)
    rintro left s₁ ⟨f₁, hs₁, hleft⟩
    refine runs_bind (runs_accept hs₁ fun s₂ hs₂ => runs_bind ((ih hs₂).mono ?_))
    rintro right s₃ ⟨f₃, hs₃, hright⟩
    refine runs_bind (runs_leaf hs₃ fun s₄ hs₄ => runs_bind (runs_attach hs₄ fun s₅ hs₅ => ?_))
    refine runs_bind (runs_attach hs₅ fun s₆ hs₆ => runs_pure ⟨_, hs₆, hleft.binary hright⟩)

/-! ### Texts and quantities -/

theorem plants_name {kind : NodeKind} (t : Leaf [.literal]) :
    Plants (name kind) [t.1] [] (nameAt kind t.1 []) := by
  intro s w f hs _
  exact runs_name hs fun s₁ hs₁ => ⟨_, hs₁, Hung.refl.planted⟩

theorem plants_number (n : Leaf [.number]) : Plants number [n.1] [] (numberTree n) := by
  intro s w f hs _
  refine runs_bind (runs_expect hs fun s₁ hs₁ => ?_)
  exact runs_leaf hs₁ fun s₂ hs₂ => ⟨_, hs₂, Hung.refl.planted⟩

theorem plants_term (t : Term) :
    Plants term (Term.tokens t) [.times, .divide] (Term.tree t) :=
  plants_chain (derives_number.consumes (by simp)) plants_number (by decide) t

theorem plants_expression (e : Expression) :
    Plants expression (Expression.tokens e) [.plus, .minus, .times, .divide] (Expression.tree e) :=
  plants_chain (derives_term.consumes Term.tokens_ne_nil) plants_term (by decide) e

theorem plants_use (u : Use) : Plants use u.tokens [] u.tree := by
  intro s w f hs _
  simp only [Use.tokens, List.cons_append, List.append_assoc, List.nil_append] at hs
  have hclosing : ¬Ahead [.plus, .minus, .times, .divide] (u.closing.1 :: w) :=
    u.closing.not_ahead (by decide)
  refine runs_bind (runs_name hs fun s₁ hs₁ => runs_bind (runs_expect hs₁ fun s₂ hs₂ => ?_))
  refine runs_bind ((plants_expression u.quantity hs₂ hclosing).mono ?_)
  rintro quantity s₃ ⟨f₃, hs₃, hquantity⟩
  refine runs_bind (runs_attach hs₃ fun s₄ hs₄ => runs_bind (runs_expect hs₄ fun s₅ hs₅ => ?_))
  exact runs_pure ⟨_, hs₅, Hung.planted (hquantity.attach lt_size_alloc)⟩

theorem runs_quoted {opening closing : Leaf [.quote]} {body : Leaf [.text]}
    (hs : s.At (opening.1 :: body.1 :: closing.1 :: w) f) :
    quoted.Runs s fun t s' => t = body.1 ∧ s'.At w f := by
  refine runs_bind (runs_expect hs fun s₁ hs₁ => runs_bind (runs_expect hs₁ fun s₂ hs₂ => ?_))
  exact runs_bind (runs_expect hs₂ fun s₃ hs₃ => runs_pure ⟨rfl, hs₃⟩)

/-- The texts of a row are read in order, without making a node. -/
theorem runs_quotes (q : Quotation) (hs : s.At (q.tokens ++ w) f) (hw : ¬Ahead [.quote] w) :
    (collect quoted (sees [.quote])).Runs s fun p s' =>
      (p.1 = q.head ∧ (p.1 :: p.2).map (·.text) = q.texts) ∧ s'.At w f := by
  induction q generalizing s with
  | last opening body closing =>
    rw [collect_eq consumes_quoted returns_sees]
    refine runs_bind ((runs_quoted hs).mono ?_)
    rintro _ s₁ ⟨rfl, hs₁⟩
    -- no quote follows, so this was the last text
    refine runs_bind ⟨false, s₁, sees_eq_ok_iff.mpr ⟨?_, rfl⟩, runs_pure ⟨⟨rfl, rfl⟩, hs₁⟩⟩
    exact iff_of_false (by decide) (hs₁.rest ▸ hw)
  | more opening body closing others ih =>
    rw [collect_eq consumes_quoted returns_sees]
    refine runs_bind ((runs_quoted hs).mono ?_)
    rintro _ s₁ ⟨rfl, hs₁⟩
    -- the quote that follows opens the next text
    refine runs_bind ⟨true, s₁, sees_eq_ok_iff.mpr ⟨?_, rfl⟩, runs_bind ((ih hs₁).mono ?_)⟩
    · exact iff_of_true rfl (hs₁.rest ▸ Quotation.starts others w)
    · rintro ⟨second, rest⟩ s₂ ⟨⟨-, htexts⟩, hs₂⟩
      exact runs_pure ⟨⟨rfl, congrArg (body.1.text :: ·) htexts⟩, hs₂⟩

theorem plants_text (q : Quotation) : Plants text q.tokens [.quote] q.tree := by
  intro s w f hs hw
  refine runs_bind ((runs_quotes q hs hw).mono ?_)
  rintro ⟨first, others⟩ s₁ ⟨⟨hfirst, htexts⟩, hs₁⟩
  refine runs_leaf hs₁ fun s₂ hs₂ => ⟨_, hs₂, ?_⟩
  dsimp only at hfirst htexts ⊢
  rw [htexts, hfirst]
  exact Hung.refl.planted

/-! ### Definitions -/

theorem plants_resizing (z : Resize) : Plants (resizing z.keyword.1) [z.side.1] [] z.tree := by
  intro s w f hs _
  refine runs_bind (runs_leaf hs fun s₁ hs₁ => ?_)
  refine runs_bind ((plants_number z.side hs₁ not_ahead_none).mono ?_)
  rintro side s₂ ⟨f₂, hs₂, hside⟩
  refine runs_bind (runs_attach hs₂ fun s₃ hs₃ => runs_pure ⟨_, hs₃, ?_⟩)
  exact Hung.planted (hside.attach lt_size_alloc)

theorem hangs_resizing (o : Option Resize) :
    Hangs (optional [.kwResize] fun t => do attach p (← resizing t)) p
      (o.toList.flatMap Resize.tokens) [.kwResize] (o.toList.map Resize.tree) :=
  hangs_optional (fun z => ⟨z.keyword, [z.side.1], rfl, (plants_resizing z).hangs⟩) o

theorem plants_ingredient (keyword : Leaf [.kwIngredient]) (name : Leaf [.literal])
    (opening : Leaf [.openParen]) (path : Quotation) (closing : Leaf [.closeParen])
    (resize : Option Resize) (semicolon : Leaf [.semicolon]) :
    Plants (ingredient keyword.1)
      (Definition.ingredient keyword name opening path closing resize semicolon).body []
      (Definition.ingredient keyword name opening path closing resize semicolon).tree := by
  intro s w f hs _
  simp only [Definition.body, List.cons_append, List.append_assoc, List.nil_append] at hs
  refine runs_bind (runs_leaf hs fun s₁ hs₁ => runs_bind (runs_name hs₁ fun s₂ hs₂ => ?_))
  -- the name hangs from the definition before the path hangs from the name
  refine runs_bind (runs_attach hs₂ fun s₃ hs₃ => runs_bind (runs_expect hs₃ fun s₄ hs₄ => ?_))
  refine runs_bind ((plants_text path hs₄ (closing.not_ahead (by decide))).mono ?_)
  rintro pathId s₅ ⟨f₅, hs₅, hpath⟩
  refine runs_bind (runs_attach hs₅ fun s₆ hs₆ => runs_bind (runs_expect hs₆ fun s₇ hs₇ => ?_))
  have hname := (hpath.attach (by rw [size_attach]; exact lt_size_alloc)).below lt_size_alloc
  refine runs_bind ((hangs_resizing resize hs₇ (semicolon.not_ahead (by decide))
    (hname.lt_size lt_size_alloc)).mono ?_)
  rintro _ s₈ ⟨f₈, hs₈, hhung⟩
  refine runs_bind (runs_expect hs₈ fun s₉ hs₉ => runs_pure ⟨f₈, hs₉, ?_⟩)
  exact (hname.trans hhung lt_size_alloc).planted

theorem hangs_portion {p : Nat} (u : Use × Leaf [.semicolon]) :
    Hangs (portion p) p (portionTokens u) [] [u.1.tree] := by
  intro s w f hs _ hp
  simp only [portionTokens, List.append_assoc, List.cons_append, List.nil_append] at hs
  refine runs_bind ((plants_use u.1 hs not_ahead_none).mono ?_)
  rintro id s₁ ⟨f₁, hs₁, hid⟩
  refine runs_bind (runs_attach hs₁ fun s₂ hs₂ => runs_bind (runs_expect hs₂ fun s₃ hs₃ => ?_))
  exact runs_pure ⟨_, hs₃, hid.attach hp⟩

theorem plants_specialty (keyword : Leaf [.kwSpecialty]) (name : Leaf [.literal])
    (opening : Leaf [.openBrace]) (first : Use × Leaf [.semicolon])
    (others : List (Use × Leaf [.semicolon])) (closing : Leaf [.closeBrace]) :
    Plants (specialty keyword.1)
      (Definition.specialty keyword name opening first others closing).body []
      (Definition.specialty keyword name opening first others closing).tree := by
  intro s w f hs _
  simp only [Definition.body, List.cons_append, List.append_assoc, List.nil_append] at hs
  refine runs_bind (runs_leaf hs fun s₁ hs₁ => runs_bind (runs_name hs₁ fun s₂ hs₂ => ?_))
  refine runs_bind (runs_attach hs₂ fun s₃ hs₃ => runs_bind (runs_expect hs₃ fun s₄ hs₄ => ?_))
  have hreturns : Returns (do return !(← sees [.closeBrace])) := by
    intro s b s' h
    obtain ⟨b', t, hr, hb⟩ := Stateful.bind_eq_ok_iff.mp h
    obtain ⟨-, rfl⟩ := Stateful.pure_eq_ok_iff.mp hb
    exact returns_sees s b' t hr
  have hportions := runs_sequence (E := Ahead [.closeBrace])
    (derives_portion.consumes (by simp [portionTokens])) hreturns hangs_portion
    ?more ?stop hs₄ closing.ahead (by rw [size_attach]; exact lt_size_alloc)
  case more =>
    intro u s w hs
    have hsees : sees [.closeBrace] s = .ok false s := by
      refine sees_eq_ok_iff.mpr ⟨iff_of_false (by decide) ?_, rfl⟩
      rw [hs]
      exact (starts_portionTokens u w).not_of_disjoint (by decide)
    exact Stateful.bind_of_ok hsees
  case stop =>
    intro s hahead
    have hsees : sees [.closeBrace] s = .ok true s :=
      sees_eq_ok_iff.mpr ⟨iff_of_true rfl hahead, rfl⟩
    exact Stateful.bind_of_ok hsees
  refine runs_bind (hportions.mono ?_)
  rintro _ s₅ ⟨f₅, hs₅, hhung⟩
  refine runs_bind (runs_expect hs₅ fun s₆ hs₆ => runs_pure ⟨f₅, hs₆, ?_⟩)
  exact (hhung.below lt_size_alloc).planted

theorem plants_definition {keyword : Token} (d : Definition) :
    Plants (definition keyword) d.tokens [] (frameAt .definition keyword [d.tree]) := by
  intro s w f hs _
  rw [Definition.tokens, List.cons_append] at hs
  refine runs_bind (runs_leaf hs fun s₁ hs₁ => ?_)
  cases d with
  | ingredient word name opening path closing resize semicolon =>
    have hword : word.1.lexeme = .kwIngredient := by simpa using word.2
    refine runs_bind (runs_expect (t := ⟨word.1, by simp [hword]⟩) hs₁ fun s₂ hs₂ => ?_)
    rw [if_pos hword]
    refine runs_bind ((plants_ingredient word name opening path closing resize semicolon hs₂
      not_ahead_none).mono ?_)
    rintro defined s₃ ⟨f₃, hs₃, hdefined⟩
    refine runs_bind (runs_attach hs₃ fun s₄ hs₄ => runs_pure ⟨_, hs₄, ?_⟩)
    exact Hung.planted (hdefined.attach lt_size_alloc)
  | specialty word name opening first others closing =>
    have hword : word.1.lexeme = .kwSpecialty := by simpa using word.2
    refine runs_bind (runs_expect (t := ⟨word.1, by simp [hword]⟩) hs₁ fun s₂ hs₂ => ?_)
    rw [if_neg (by rw [hword]; decide)]
    refine runs_bind ((plants_specialty word name opening first others closing hs₂
      not_ahead_none).mono ?_)
    rintro defined s₃ ⟨f₃, hs₃, hdefined⟩
    refine runs_bind (runs_attach hs₃ fun s₄ hs₄ => runs_pure ⟨_, hs₄, ?_⟩)
    exact Hung.planted (hdefined.attach lt_size_alloc)

/-! ### Pizzas -/

theorem plants_add (a : AddClause) : Plants (add a.keyword.1) a.body [.kwAnd] a.tree := by
  intro s w f hs hw
  refine runs_bind (runs_leaf hs fun s₁ hs₁ => ?_)
  have hconsumes := (derives_use.attaching f.size).consumes (by simp [Use.tokens])
  refine runs_bind ((hangs_joined hconsumes (fun u => (plants_use u).hangs) a.first a.others hs₁ hw
    lt_size_alloc).mono ?_)
  rintro _ s₂ ⟨f₂, hs₂, hhung⟩
  exact runs_pure ⟨f₂, hs₂, hhung.planted⟩

theorem plants_specialties (o : OfClause) :
    Plants (specialties o.keyword.1) o.body [.kwAnd] o.tree := by
  intro s w f hs hw
  refine runs_bind (runs_leaf hs fun s₁ hs₁ => ?_)
  have hconsumes : Consumes (do attach f.size (← name .specialty)) :=
    (derives_name.attaching f.size).consumes (by simp)
  refine runs_bind ((hangs_joined hconsumes (fun t => (plants_name t).hangs) o.first o.others hs₁ hw
    lt_size_alloc).mono ?_)
  rintro _ s₂ ⟨f₂, hs₂, hhung⟩
  exact runs_pure ⟨f₂, hs₂, hhung.planted⟩

theorem plants_save (c : SaveClause) : Plants (save c.keyword.1) c.body [.quote] c.tree := by
  intro s w f hs hw
  refine runs_bind (runs_leaf hs fun s₁ hs₁ => runs_bind (runs_expect hs₁ fun s₂ hs₂ => ?_))
  refine runs_bind ((plants_text c.name hs₂ hw).mono ?_)
  rintro id s₃ ⟨f₃, hs₃, hid⟩
  refine runs_bind (runs_attach hs₃ fun s₄ hs₄ => runs_pure ⟨_, hs₄, ?_⟩)
  exact Hung.planted (hid.attach lt_size_alloc)

theorem hangs_adding (o : Option AddClause) :
    Hangs (optional [.kwAdd] fun t => do attach p (← add t)) p
      (o.toList.flatMap AddClause.tokens) [.kwAdd, .kwAnd] (o.toList.map AddClause.tree) :=
  hangs_optional (fun a => ⟨a.keyword, a.body, rfl, (plants_add a).hangs⟩) o

theorem hangs_saving (o : Option SaveClause) :
    Hangs (optional [.kwSave] fun t => do attach p (← save t)) p
      (o.toList.flatMap SaveClause.tokens) [.kwSave, .quote] (o.toList.map SaveClause.tree) :=
  hangs_optional (fun c => ⟨c.keyword, c.body, rfl, (plants_save c).hangs⟩) o

theorem hangs_toppings (t : Toppings) :
    Hangs (toppings p) p t.tokens [.kwAdd, .kwAnd] t.trees := by
  intro s w f hs hw hp
  have hand : ¬Ahead [.kwAnd] w := fun h => hw (h.mono (by decide))
  cases t with
  | add clause =>
    have hword : clause.keyword.1.lexeme = .kwAdd := by simpa using clause.keyword.2
    refine runs_bind (runs_expect (t := ⟨clause.keyword.1, by simp [hword]⟩) hs fun s₁ hs₁ => ?_)
    rw [if_pos hword]
    exact (plants_add clause).hangs hs₁ hand hp
  | names clause added =>
    have hword : clause.keyword.1.lexeme = .kwOf := by simpa using clause.keyword.2
    rw [Toppings.tokens, List.append_assoc, OfClause.tokens, List.cons_append] at hs
    refine runs_bind (runs_expect (t := ⟨clause.keyword.1, by simp [hword]⟩) hs fun s₁ hs₁ => ?_)
    rw [if_neg (by rw [hword]; decide)]
    -- what follows the specialties is the optional clause, or what follows it all
    refine runs_bind ((plants_specialties clause hs₁ (Toppings.not_ahead_added hw)).mono ?_)
    rintro id s₂ ⟨f₂, hs₂, hid⟩
    refine runs_bind (runs_attach hs₂ fun s₃ hs₃ => ?_)
    have hclause := hid.attach hp
    refine (hangs_adding added hs₃ hw (hclause.lt_size hp)).mono ?_
    rintro _ s₄ ⟨f₄, hs₄, hhung⟩
    exact ⟨f₄, hs₄, hclause.trans hhung hp⟩

theorem plants_pizza (m : Make) :
    Plants (pizza m.pizza.1) m.pizzaBody [.kwAdd, .kwAnd, .kwSave, .quote] m.pizzaTree := by
  intro s w f hs hw
  rw [Make.pizzaBody, List.append_assoc] at hs
  refine runs_bind (runs_leaf hs fun s₁ hs₁ => ?_)
  have hsave : ¬Ahead [.kwSave, .quote] w := fun h => hw (h.mono (by decide))
  have htoppings : ¬Ahead [.kwAdd, .kwAnd] w := fun h => hw (h.mono (by decide))
  refine runs_bind ((hangs_toppings m.toppings hs₁ (SaveClause.not_ahead_saved htoppings)
    lt_size_alloc).mono ?_)
  rintro _ s₂ ⟨f₂, hs₂, hhung⟩
  refine runs_bind ((hangs_saving m.save hs₂ hsave (hhung.lt_size lt_size_alloc)).mono ?_)
  rintro _ s₃ ⟨f₃, hs₃, hhung'⟩
  exact runs_pure ⟨f₃, hs₃, (hhung.trans hhung' lt_size_alloc).planted⟩

theorem plants_make (m : Make) : Plants (make m.keyword.1) m.body [] m.tree := by
  intro s w f hs _
  simp only [Make.body, List.cons_append, List.append_assoc, List.nil_append] at hs
  refine runs_bind (runs_leaf hs fun s₁ hs₁ => runs_bind (runs_expect hs₁ fun s₂ hs₂ => ?_))
  refine runs_bind (runs_leaf hs₂ fun s₃ hs₃ => runs_bind (runs_attach hs₃ fun s₄ hs₄ => ?_))
  refine runs_bind (runs_expect hs₄ fun s₅ hs₅ => runs_bind ?_)
  refine (plants_pizza m hs₅ (m.semicolon.not_ahead (by decide))).mono ?_
  rintro body s₆ ⟨f₆, hs₆, hbody⟩
  refine runs_bind (runs_attach hs₆ fun s₇ hs₇ => runs_bind (runs_expect hs₇ fun s₈ hs₈ => ?_))
  refine runs_pure ⟨_, hs₈, Hung.planted (Hung.below (hbody.attach ?_) lt_size_alloc)⟩
  rw [size_attach]
  exact lt_size_alloc

/-! ### Programs -/

theorem plants_statement (d : Statement) : Plants statement d.tokens [] d.tree := by
  intro s w f hs _
  -- the first token is taken whatever it is
  have hnext : ∀ {wanted : List Lexeme} {t : Token} {Q : Token → Cursor → Prop},
      s.At (t :: (d.body ++ w)) f → (∀ s', s'.At (d.body ++ w) f → Q t s') →
      (next wanted).Runs s Q :=
    fun hs h => ⟨_, _, next_eq_ok_iff.mpr ⟨_, hs.rest, rfl⟩, h _ ⟨rfl, hs.forest⟩⟩
  refine runs_bind (hnext hs fun s₁ hs₁ => ?_)
  cases d with
  | inclusion keyword path semicolon =>
    have hword : keyword.1.lexeme = .kwInclude := by simpa using keyword.2
    rw [Statement.body, List.append_assoc] at hs₁
    simp only [Statement.keyword, hword]
    refine runs_bind (runs_leaf hs₁ fun s₂ hs₂ => ?_)
    refine runs_bind ((plants_text path hs₂ (semicolon.not_ahead (by decide))).mono ?_)
    rintro id s₃ ⟨f₃, hs₃, hid⟩
    refine runs_bind (runs_attach hs₃ fun s₄ hs₄ => ?_)
    refine runs_bind (runs_expect hs₄ fun s₅ hs₅ => runs_pure ⟨_, hs₅, ?_⟩)
    exact Hung.planted (hid.attach lt_size_alloc)
  | definition keyword defined =>
    have hword : keyword.1.lexeme = .kwDefine := by simpa using keyword.2
    simp only [Statement.keyword, hword]
    exact plants_definition defined hs₁ not_ahead_none
  | make order =>
    have hword : order.keyword.1.lexeme = .kwMake := by simpa using order.keyword.2
    simp only [Statement.keyword, hword]
    exact plants_make order hs₁ not_ahead_none

/-- **A program is read to its end** wherever there is one, and its tree is planted. -/
theorem runs_program (d : Program) (hs : s.At d.tokens f) :
    program.Runs s fun id s' => ∃ f', s'.At [] f' ∧ Planted f f' id (d.tree s.unit) := by
  rw [Program.tokens, ← List.append_nil (List.flatMap _ _)] at hs
  refine runs_bind ⟨s, s, rfl, runs_bind (runs_leaf hs fun s₁ hs₁ => ?_)⟩
  have hconsumes := (derives_statement.attaching f.size).consumes (by simp [Statement.tokens])
  have hreturns : Returns seesAny := by
    intro s b s' h
    obtain ⟨-, rfl⟩ := seesAny_eq_ok_iff.mp h
    exact Nat.le_refl _
  have hstatements := runs_sequence (E := fun w => w = []) hconsumes hreturns
    (fun d => (plants_statement d).hangs) ?more ?stop hs₁ rfl lt_size_alloc
  case more =>
    intro d s w hs
    exact seesAny_eq_ok_iff.mpr ⟨iff_of_true rfl (by simp [hs, Statement.tokens]), rfl⟩
  case stop =>
    intro s hnil
    exact seesAny_eq_ok_iff.mpr ⟨iff_of_false (by decide) (by simp [hnil]), rfl⟩
  refine runs_bind (hstatements.mono ?_)
  rintro _ s₂ ⟨f₂, hs₂, hhung⟩
  exact runs_pure ⟨f₂, hs₂, hhung.planted⟩

end Reader

end PizzaLang
