import PizzaLang.Proofs.Derivation

/-!
# What is read has a derivation

A reader that succeeds has taken some tokens from the front, and these are the tokens of a
derivation from the rule that the reader is for (`PizzaLang.Reader.Derives`). Readers are
followed step by step: `PizzaLang.Reader.After` says what holds of the tokens that are left
after a reader, if it succeeds, and there is one rule for each way to put readers together.

The forest that readers build plays no part here: which tokens a reader takes does not depend
on it.
-/

namespace PizzaLang

namespace Reader

open PizzaLang.Derivation

variable {α β : Type} {ts : List Token}

/-! ### Following a reader -/

/-- **After a reader**, if it succeeds from the given tokens, its result and the tokens that are
left satisfy a condition. -/
def After (r : Reader α) (ts : List Token) (Q : α → List Token → Prop) : Prop :=
  ∀ ⦃s : Cursor⦄ ⦃a : α⦄ ⦃s' : Cursor⦄, s.rest = ts → r s = .ok a s' → Q a s'.rest

section Steps

variable {r : Reader α} {k : α → Reader β} {Q : α → List Token → Prop}

theorem After.mono (h : r.After ts Q) {Q' : α → List Token → Prop}
    (himp : ∀ a us, Q a us → Q' a us) : r.After ts Q' :=
  fun _ _ _ hs hr => himp _ _ (h hs hr)

theorem after_bind {Q : β → List Token → Prop} (h : r.After ts fun a us => (k a).After us Q) :
    (r >>= k).After ts Q := by
  intro s b s' hs hk
  obtain ⟨a, t, hr, hk⟩ := Stateful.bind_eq_ok_iff.mp hk
  exact h hs hr rfl hk

theorem after_pure {a : α} (h : Q a ts) : (pure a : Reader α).After ts Q := by
  rintro s b s' rfl hr
  obtain ⟨rfl, rfl⟩ := Stateful.pure_eq_ok_iff.mp hr
  exact h

theorem after_expect {lexemes : List Lexeme} {Q : Token → List Token → Prop}
    (h : ∀ (t : Leaf lexemes) us, ts = t.1 :: us → Q t.1 us) : (expect lexemes).After ts Q := by
  rintro s t s' rfl hr
  obtain ⟨us, hs, ht, rfl⟩ := expect_eq_ok_iff.mp hr
  exact h ⟨t, ht⟩ us hs

theorem after_accept {lexemes : List Lexeme} {Q : Option Token → List Token → Prop}
    (hsome : ∀ (t : Leaf lexemes) us, ts = t.1 :: us → Q (some t.1) us) (hnone : Q none ts) :
    (accept lexemes).After ts Q := by
  rintro s o s' rfl hr
  rcases accept_eq_ok_iff.mp hr with ⟨t, us, rfl, hs, ht, rfl⟩ | ⟨rfl, -, rfl⟩
  · exact hsome ⟨t, ht⟩ us hs
  · exact hnone

theorem after_optional {lexemes : List Lexeme} {act : Token → Reader Unit}
    {Q : Unit → List Token → Prop}
    (hsome : ∀ (t : Leaf lexemes) us, ts = t.1 :: us → (act t.1).After us Q) (hnone : Q () ts) :
    (optional lexemes act).After ts Q :=
  after_bind (after_accept hsome (after_pure hnone))

theorem after_sees {lexemes : List Lexeme} {Q : Bool → List Token → Prop} (h : ∀ b, Q b ts) :
    (sees lexemes).After ts Q := by
  rintro s b s' rfl hr
  obtain ⟨-, rfl⟩ := sees_eq_ok_iff.mp hr
  exact h b

theorem after_seesAny {Q : Bool → List Token → Prop} (hmore : Q true ts)
    (hdone : ts = [] → Q false ts) : seesAny.After ts Q := by
  rintro s b s' rfl hr
  obtain ⟨hb, rfl⟩ := seesAny_eq_ok_iff.mp hr
  cases b with
  | true => exact hmore
  | false => exact hdone (by simpa using hb)

theorem after_next {wanted : List Lexeme} {Q : Token → List Token → Prop}
    (h : ∀ t us, ts = t :: us → Q t us) : (next wanted).After ts Q := by
  rintro s t s' rfl hr
  obtain ⟨us, hs, rfl⟩ := next_eq_ok_iff.mp hr
  exact h t us hs

theorem after_leaf {kind : NodeKind} {value : String} {position : Position}
    {Q : NodeId → List Token → Prop} (h : ∀ id, Q id ts) :
    (leaf kind value position).After ts Q := by
  rintro s id s' rfl hr
  obtain ⟨-, rfl⟩ := leaf_eq_ok_iff.mp hr
  exact h id

theorem after_attach {parent child : NodeId} {Q : Unit → List Token → Prop} (h : Q () ts) :
    (attach parent child).After ts Q := by
  rintro s u s' rfl hr
  obtain rfl := attach_eq_ok_iff.mp hr
  exact h

end Steps

/-- **A reader is for a rule of the grammar**: what it takes is derived from the rule. -/
def Derives {δ : Type} (r : Reader α) (tokens : δ → List Token) : Prop :=
  ∀ ts, r.After ts fun _ us => ∃ d, ts = tokens d ++ us

theorem Derives.after {δ : Type} {r : Reader α} {tokens : δ → List Token} (h : Derives r tokens)
    {Q : α → List Token → Prop} (hQ : ∀ d a us, ts = tokens d ++ us → Q a us) : r.After ts Q :=
  (h ts).mono fun a us ⟨d, hd⟩ => hQ d a us hd

theorem Derives.consumes {δ : Type} {r : Reader α} {tokens : δ → List Token} (h : Derives r tokens)
    (hne : ∀ d, tokens d ≠ []) : Consumes r := by
  intro s a s' hr
  obtain ⟨d, hd⟩ := h s.rest rfl hr
  have := List.length_pos_iff.mpr (hne d)
  rw [hd, List.length_append]
  omega

/-- Where the node is attached does not change what is taken. -/
theorem Derives.attaching {δ : Type} {r : Reader NodeId} {tokens : δ → List Token}
    (h : Derives r tokens) (p : NodeId) : Derives (do attach p (← r)) tokens := fun _ =>
  after_bind (h.after fun d _ _ hts => after_attach ⟨d, hts⟩)

/-! ### Loops -/

/-- **After one item or more**: what holds after the last item, and is carried back over an item
and what separates it from the next, holds after all of them. -/
theorem after_collect {item : Reader α} {more : Reader Bool}
    {I N E P : List Token → List Token → Prop}
    (hitem : ∀ ts, item.After ts fun _ us => I ts us ∧ us.length < ts.length)
    (hmore : ∀ ts, more.After ts fun b us =>
      (if b then N ts us else E ts us) ∧ us.length ≤ ts.length)
    (hlast : ∀ {ts us vs}, I ts us → E us vs → P ts vs)
    (hnext : ∀ {ts us vs ws}, I ts us → N us vs → P vs ws → P ts ws) :
    (collect item more).After ts fun _ us => P ts us := by
  have hconsumes : Consumes item := fun s a s' h => (hitem s.rest rfl h).2
  have hreturns : Returns more := fun s b s' h => (hmore s.rest rfl h).2
  -- every round leaves fewer tokens
  induction hn : ts.length using Nat.strongRecOn generalizing ts with
  | ind n ih =>
    subst hn
    rw [collect_eq hconsumes hreturns]
    refine after_bind ((hitem ts).mono fun first us hfirst => ?_)
    refine after_bind ((hmore us).mono fun b vs hb => ?_)
    cases b with
    | false => exact after_pure (hlast hfirst.1 hb.1)
    | true =>
      refine after_bind ((ih vs.length (by omega) rfl).mono fun others ws hothers => ?_)
      exact after_pure (hnext hfirst.1 hb.1 hothers)

section Repetition

variable {δ : Type} {item : Reader α} {tokens : δ → List Token}

/-- **Items in a row**, where nothing separates one from the next. -/
theorem after_sequence {more : Reader Bool} {E : List Token → Prop} (h : Derives item tokens)
    (hne : ∀ d, tokens d ≠ [])
    (hmore : ∀ ts, more.After ts fun b us => ts = us ∧ (b = false → E us)) :
    (collect item more).After ts fun _ us =>
      (∃ d ds, ts = (d :: ds).flatMap tokens ++ us) ∧ E us := by
  refine after_collect (I := fun ts us => ∃ d, ts = tokens d ++ us) (N := Eq)
    (E := fun ts us => ts = us ∧ E us)
    (P := fun ts us => (∃ d ds, ts = (d :: ds).flatMap tokens ++ us) ∧ E us)
    (fun ts s a s' hs hr => ?item) (fun ts => (hmore ts).mono fun b us hb => ?more) ?last ?next
  case item =>
    subst hs
    exact ⟨h s.rest rfl hr, h.consumes hne s a s' hr⟩
  case more =>
    obtain ⟨rfl, hend⟩ := hb
    refine ⟨?_, Nat.le_refl _⟩
    cases b with
    | true => rfl
    | false => exact ⟨rfl, hend rfl⟩
  case last =>
    rintro ts us _ ⟨d, rfl⟩ ⟨rfl, hend⟩
    exact ⟨⟨d, [], by simp⟩, hend⟩
  case next =>
    rintro ts us _ ws ⟨d, rfl⟩ rfl ⟨⟨e, es, rfl⟩, hend⟩
    exact ⟨⟨d, e :: es, by simp⟩, hend⟩

/-- **Items joined by the word for it.** -/
theorem derives_joined (h : Derives item tokens) (hne : ∀ d, tokens d ≠ []) :
    Derives (collect item acceptAnd) fun p : δ × List (Leaf [.kwAnd] × δ) =>
      tokens p.1 ++ p.2.flatMap fun q => q.1.1 :: tokens q.2 := by
  intro ts
  refine after_collect (I := fun ts us => ∃ d, ts = tokens d ++ us)
    (N := fun ts us => ∃ word : Leaf [.kwAnd], ts = word.1 :: us) (E := Eq)
    (P := fun ts us => ∃ p : δ × List (Leaf [.kwAnd] × δ),
      ts = (tokens p.1 ++ p.2.flatMap fun q => q.1.1 :: tokens q.2) ++ us)
    (fun ts s a s' hs hr => ?item)
    (fun ts => after_bind (after_accept (fun word us hts => ?some) ?none)) ?last ?next
  case item =>
    subst hs
    exact ⟨h s.rest rfl hr, h.consumes hne s a s' hr⟩
  case some =>
    subst hts
    exact after_pure ⟨⟨word, rfl⟩, Nat.le_succ _⟩
  case none => exact after_pure ⟨rfl, Nat.le_refl _⟩
  case last =>
    rintro ts us _ ⟨d, rfl⟩ rfl
    exact ⟨(d, []), by simp⟩
  case next =>
    rintro ts us vs ws ⟨d, rfl⟩ ⟨word, rfl⟩ ⟨⟨e, es⟩, rfl⟩
    exact ⟨(d, (word, e) :: es), by simp⟩

end Repetition

/-- A reader of operands joined by operators is for chains. -/
theorem derives_chain {δ : Type} {operand : Reader NodeId} {operators : List Lexeme}
    {tokens : δ → List Token} (h : Derives operand tokens) (hne : ∀ d, tokens d ≠ []) :
    Derives (chain operand operators) fun c : Chain operators δ => c.tokens tokens := by
  intro ts
  -- an operand and an operator have been taken when the rest of the chain is read
  induction hn : ts.length using Nat.strongRecOn generalizing ts with
  | ind n ih =>
    subst hn
    rw [chain_eq (h.consumes hne)]
    refine after_bind (h.after fun left _ us hleft => ?_)
    have hlt := List.length_pos_iff.mpr (hne left)
    refine after_bind (after_accept (fun operator vs hus => ?_) ?_)
    · have hvs : vs.length < ts.length := by
        rw [hleft, hus, List.length_append, List.length_cons]
        omega
      refine after_bind ((ih vs.length hvs vs rfl).mono ?_)
      rintro right ws ⟨c, hc⟩
      refine after_bind (after_leaf fun node => ?_)
      refine after_bind (after_attach (after_bind (after_attach (after_pure ?_))))
      exact ⟨.link left operator c, by simp [Chain.tokens, hleft, hus, hc]⟩
    · exact after_pure ⟨.last left, hleft⟩

/-! ### The readers of the grammar -/

theorem derives_name {kind : NodeKind} :
    Derives (name kind) fun t : Leaf [.literal] => [t.1] := by
  intro ts
  refine after_bind (after_expect fun t us hts => ?_)
  exact after_leaf fun _ => ⟨t, hts⟩

theorem derives_number : Derives number fun n : Leaf [.number] => [n.1] := by
  intro ts
  refine after_bind (after_expect fun n us hts => ?_)
  exact after_leaf fun _ => ⟨n, hts⟩

theorem derives_term : Derives term Term.tokens :=
  derives_chain derives_number fun _ => List.cons_ne_nil _ _

theorem Term.tokens_ne_nil (t : Term) : Term.tokens t ≠ [] := by
  cases t <;> simp [Term.tokens, Chain.tokens]

theorem derives_expression : Derives expression Expression.tokens :=
  derives_chain derives_term Term.tokens_ne_nil

theorem derives_use : Derives use Use.tokens := by
  intro ts
  refine after_bind (derives_name.after fun name _ ts₁ h₁ => ?_)
  refine after_bind (after_expect fun opening ts₂ h₂ => ?_)
  refine after_bind (derives_expression.after fun quantity _ ts₃ h₃ => ?_)
  refine after_bind (after_attach (after_bind (after_expect fun closing ts₄ h₄ => ?_)))
  refine after_pure ⟨⟨name, opening, quantity, closing⟩, ?_⟩
  simp [Use.tokens, h₁, h₂, h₃, h₄]

theorem derives_quoted :
    Derives quoted fun p : Leaf [.quote] × Leaf [.text] × Leaf [.quote] =>
      [p.1.1, p.2.1.1, p.2.2.1] := by
  intro ts
  refine after_bind (after_expect fun opening ts₁ h₁ => ?_)
  refine after_bind (after_expect fun body ts₂ h₂ => ?_)
  refine after_bind (after_expect fun closing ts₃ h₃ => after_pure ⟨(opening, body, closing), ?_⟩)
  simp [h₁, h₂, h₃]

theorem consumes_quoted : Consumes quoted := derives_quoted.consumes (by simp)

theorem derives_text : Derives text Quotation.tokens := by
  intro ts
  refine after_bind (After.mono (after_collect
    (I := fun ts us => ∃ p : Leaf [.quote] × Leaf [.text] × Leaf [.quote],
      ts = [p.1.1, p.2.1.1, p.2.2.1] ++ us)
    (N := Eq) (E := Eq) (P := fun ts us => ∃ q : Quotation, ts = q.tokens ++ us)
    (fun ts s a s' hs hr => ?item) (fun ts => after_sees fun b => ?more) ?last ?next)
    fun _ us hq => ?_)
  case item =>
    subst hs
    exact ⟨derives_quoted s.rest rfl hr, consumes_quoted s a s' hr⟩
  case more => exact ⟨by cases b <;> rfl, Nat.le_refl _⟩
  case last =>
    rintro ts us _ ⟨⟨opening, body, closing⟩, rfl⟩ rfl
    exact ⟨.last opening body closing, rfl⟩
  case next =>
    rintro ts us _ ws ⟨⟨opening, body, closing⟩, rfl⟩ rfl ⟨q, rfl⟩
    exact ⟨.more opening body closing q, rfl⟩
  exact after_leaf fun _ => hq

theorem derives_ingredient (keyword : Leaf [.kwIngredient]) :
    Derives (ingredient keyword.1) fun d : { d : Definition // d.keyword = keyword.1 } =>
      d.1.body := by
  intro ts
  refine after_bind (after_leaf fun _ => ?_)
  refine after_bind (derives_name.after fun name _ ts₁ h₁ => ?_)
  refine after_bind (after_attach (after_bind (after_expect fun opening ts₂ h₂ => ?_)))
  refine after_bind (derives_text.after fun path _ ts₃ h₃ => ?_)
  refine after_bind (after_attach (after_bind (after_expect fun closing ts₄ h₄ => ?_)))
  refine after_bind (after_optional (fun word ts₅ h₅ => ?resize) ?plain)
  case resize =>
    refine after_bind (after_bind (after_leaf fun _ => ?_))
    refine after_bind (derives_number.after fun side _ ts₆ h₆ => ?_)
    refine after_bind (after_attach (after_pure (after_attach ?_)))
    refine after_bind (after_expect fun semicolon ts₇ h₇ => after_pure ?_)
    refine ⟨⟨.ingredient keyword name opening path closing (some ⟨word, side⟩) semicolon, rfl⟩, ?_⟩
    simp [Definition.body, Resize.tokens, h₁, h₂, h₃, h₄, h₅, h₆, h₇]
  case plain =>
    refine after_bind (after_expect fun semicolon ts₅ h₅ => after_pure ?_)
    refine ⟨⟨.ingredient keyword name opening path closing none semicolon, rfl⟩, ?_⟩
    simp [Definition.body, h₁, h₂, h₃, h₄, h₅]

theorem derives_portion {id : NodeId} : Derives (portion id) portionTokens := by
  intro ts
  refine after_bind (derives_use.after fun u _ ts₁ h₁ => ?_)
  refine after_bind (after_attach (after_bind (after_expect fun semicolon ts₂ h₂ => ?_)))
  exact after_pure ⟨(u, semicolon), by simp [portionTokens, h₁, h₂]⟩

/-- The portions of a specialty, up to the brace. -/
theorem derives_portions {id : NodeId} :
    Derives (collect (portion id) (return !(← sees [.closeBrace])))
      fun p : (Use × Leaf [.semicolon]) × List (Use × Leaf [.semicolon]) =>
        (p.1 :: p.2).flatMap portionTokens := by
  intro ts
  have hmore : ∀ ts, After (do return !(← sees [.closeBrace])) ts
      fun b us => ts = us ∧ (b = false → True) :=
    fun ts => after_bind (after_sees fun b => after_pure ⟨rfl, fun _ => trivial⟩)
  refine (after_sequence derives_portion (by simp [portionTokens]) hmore).mono ?_
  rintro _ us ⟨⟨first, others, h⟩, -⟩
  exact ⟨(first, others), h⟩

theorem derives_specialty (keyword : Leaf [.kwSpecialty]) :
    Derives (specialty keyword.1) fun d : { d : Definition // d.keyword = keyword.1 } =>
      d.1.body := by
  intro ts
  refine after_bind (after_leaf fun _ => ?_)
  refine after_bind (derives_name.after fun name _ ts₁ h₁ => ?_)
  refine after_bind (after_attach (after_bind (after_expect fun opening ts₂ h₂ => ?_)))
  refine after_bind (derives_portions.after fun portions _ ts₃ h₃ => ?_)
  refine after_bind (after_expect fun closing ts₄ h₄ => after_pure ?_)
  refine ⟨⟨.specialty keyword name opening portions.1 portions.2 closing, rfl⟩, ?_⟩
  simp [Definition.body, h₁, h₂, h₃, h₄]

theorem derives_definition {keyword : Token} :
    Derives (definition keyword) Definition.tokens := by
  intro ts
  refine after_bind (after_leaf fun _ => ?_)
  refine after_bind (after_expect fun ⟨t, ht⟩ ts₁ h₁ => ?_)
  -- the reader looks for one of the two words only, and the other is what is left
  have hlexeme : t.lexeme = .kwIngredient ∨ t.lexeme = .kwSpecialty := by simpa using ht
  dsimp only
  split
  · next hkind =>
    have hmem : t.lexeme ∈ [Lexeme.kwIngredient] := by simp [hkind]
    refine after_bind ((derives_ingredient ⟨t, hmem⟩).after fun d _ ts₂ h₂ => ?_)
    refine after_bind (after_attach (after_pure ⟨d.1, ?_⟩))
    rw [h₁, h₂, Definition.tokens, d.2, List.cons_append]
  · next hkind =>
    have hmem : t.lexeme ∈ [Lexeme.kwSpecialty] := by simp [hlexeme.resolve_left hkind]
    refine after_bind ((derives_specialty ⟨t, hmem⟩).after fun d _ ts₂ h₂ => ?_)
    refine after_bind (after_attach (after_pure ⟨d.1, ?_⟩))
    rw [h₁, h₂, Definition.tokens, d.2, List.cons_append]

theorem derives_add (keyword : Leaf [.kwAdd]) :
    Derives (add keyword.1) fun c : { c : AddClause // c.keyword = keyword } => c.1.body := by
  intro ts
  refine after_bind (after_leaf fun clause => ?_)
  refine after_bind ((derives_joined (derives_use.attaching clause) (by simp [Use.tokens])).after
    fun p _ us hts => ?_)
  exact after_pure ⟨⟨⟨keyword, p.1, p.2⟩, rfl⟩, hts⟩

theorem derives_specialties (keyword : Leaf [.kwOf]) :
    Derives (specialties keyword.1) fun c : { c : OfClause // c.keyword = keyword } =>
      c.1.body := by
  intro ts
  refine after_bind (after_leaf fun clause => ?_)
  refine after_bind ((derives_joined (derives_name.attaching clause) (by simp)).after
    fun p _ us hts => ?_)
  exact after_pure ⟨⟨⟨keyword, p.1, p.2⟩, rfl⟩, hts⟩

theorem derives_save (keyword : Leaf [.kwSave]) :
    Derives (save keyword.1) fun c : { c : SaveClause // c.keyword = keyword } => c.1.body := by
  intro ts
  refine after_bind (after_leaf fun _ => ?_)
  refine after_bind (after_expect fun as ts₁ h₁ => ?_)
  refine after_bind (derives_text.after fun name _ ts₂ h₂ => ?_)
  refine after_bind (after_attach (after_pure ⟨⟨⟨keyword, as, name⟩, rfl⟩, ?_⟩))
  rw [h₁, h₂]
  rfl

theorem derives_toppings {pizza : NodeId} : Derives (toppings pizza) Toppings.tokens := by
  intro ts
  refine after_bind (after_expect fun ⟨t, ht⟩ ts₁ h₁ => ?_)
  have hlexeme : t.lexeme = .kwAdd ∨ t.lexeme = .kwOf := by simpa using ht
  dsimp only
  split
  · next hadd =>
    have hmem : t.lexeme ∈ [Lexeme.kwAdd] := by simp [hadd]
    refine after_bind ((derives_add ⟨t, hmem⟩).after fun c _ ts₂ h₂ => after_attach ?_)
    obtain ⟨c, hc⟩ := c
    exact ⟨.add c, by simp [Toppings.tokens, AddClause.tokens, hc, h₁, h₂]⟩
  · next hadd =>
    have hmem : t.lexeme ∈ [Lexeme.kwOf] := by simp [hlexeme.resolve_left hadd]
    refine after_bind ((derives_specialties ⟨t, hmem⟩).after fun c _ ts₂ h₂ => ?_)
    obtain ⟨c, hc⟩ := c
    refine after_bind (after_attach (after_optional (fun word ts₃ h₃ => ?_) ?_))
    · refine after_bind ((derives_add word).after fun a _ ts₄ h₄ => after_attach ?_)
      obtain ⟨a, ha⟩ := a
      refine ⟨.names c (some a), ?_⟩
      simp [Toppings.tokens, OfClause.tokens, AddClause.tokens, hc, ha, h₁, h₂, h₃, h₄]
    · exact ⟨.names c none, by simp [Toppings.tokens, OfClause.tokens, hc, h₁, h₂]⟩

theorem derives_pizza {keyword : Token} :
    Derives (pizza keyword) fun p : Toppings × Option SaveClause =>
      p.1.tokens ++ p.2.toList.flatMap SaveClause.tokens := by
  intro ts
  refine after_bind (after_leaf fun _ => ?_)
  refine after_bind (derives_toppings.after fun t _ ts₁ h₁ => ?_)
  refine after_bind (after_optional (fun word ts₂ h₂ => ?_) ?_)
  · refine after_bind ((derives_save word).after fun ⟨c, hc⟩ _ ts₃ h₃ => after_attach ?_)
    exact after_pure ⟨(t, some c), by simp [SaveClause.tokens, hc, h₁, h₂, h₃]⟩
  · exact after_pure ⟨(t, none), by simp [h₁]⟩

theorem derives_make (keyword : Leaf [.kwMake]) :
    Derives (make keyword.1) fun m : { m : Make // m.keyword = keyword } => m.1.body := by
  intro ts
  refine after_bind (after_leaf fun _ => ?_)
  refine after_bind (after_expect fun size ts₁ h₁ => ?_)
  refine after_bind (after_leaf fun _ => after_bind (after_attach ?_))
  refine after_bind (after_expect fun pizza ts₂ h₂ => ?_)
  refine after_bind (derives_pizza.after fun p _ ts₃ h₃ => ?_)
  refine after_bind (after_attach (after_bind (after_expect fun semicolon ts₄ h₄ => ?_)))
  refine after_pure ⟨⟨⟨keyword, size, pizza, p.1, p.2, semicolon⟩, rfl⟩, ?_⟩
  simp [Make.body, Make.pizzaBody, h₁, h₂, h₃, h₄]

theorem derives_inclusion (keyword : Leaf [.kwInclude]) :
    Derives (inclusion keyword.1) fun p : Quotation × Leaf [.semicolon] =>
      p.1.tokens ++ [p.2.1] := by
  intro ts
  refine after_bind (after_leaf fun _ => ?_)
  refine after_bind (derives_text.after fun path _ ts₁ h₁ => ?_)
  refine after_bind (after_attach (after_bind (after_expect fun semicolon ts₂ h₂ => ?_)))
  exact after_pure ⟨(path, semicolon), by simp [h₁, h₂]⟩

theorem derives_statement : Derives statement Statement.tokens := by
  intro ts
  refine after_bind (after_next fun t ts₁ h₁ => ?_)
  cases ht : t.lexeme
  case kwInclude =>
    have hmem : t.lexeme ∈ [Lexeme.kwInclude] := by simp [ht]
    refine (derives_inclusion ⟨t, hmem⟩).after fun p _ ts₂ h₂ => ?_
    exact ⟨.inclusion ⟨t, hmem⟩ p.1 p.2, by rw [h₁, h₂]; rfl⟩
  case kwDefine =>
    have hmem : t.lexeme ∈ [Lexeme.kwDefine] := by simp [ht]
    refine derives_definition.after fun d _ ts₂ h₂ => ?_
    exact ⟨.definition ⟨t, hmem⟩ d, by rw [h₁, h₂]; rfl⟩
  case kwMake =>
    have hmem : t.lexeme ∈ [Lexeme.kwMake] := by simp [ht]
    refine (derives_make ⟨t, hmem⟩).after fun ⟨m, hm⟩ _ ts₂ h₂ => ?_
    refine ⟨.make m, ?_⟩
    rw [h₁, h₂, Statement.tokens, Statement.keyword, Statement.body, hm, List.cons_append]
  -- a token with any other lexeme is taken, but starts no statement
  all_goals exact fun _ _ _ _ hr => absurd hr Stateful.throw_ne_ok

/-- **A program is read up to the last token**, and it is derived from the grammar. -/
theorem after_program :
    program.After ts fun _ us => (∃ p : Program, ts = p.tokens ++ us) ∧ us = [] := by
  refine after_bind fun s unit s' hs hget => ?_
  obtain ⟨-, rfl⟩ := EStateM.Result.ok.inj hget
  refine after_bind (after_leaf fun root => ?_)
  have hmore : ∀ ts, seesAny.After ts fun b us => ts = us ∧ (b = false → us = []) := fun ts =>
    after_seesAny ⟨rfl, fun h => absurd h (by decide)⟩ fun hts => ⟨rfl, fun _ => hts⟩
  refine after_bind ((after_sequence (derives_statement.attaching root)
    (by simp [Statement.tokens]) hmore).mono ?_)
  rintro _ us ⟨⟨first, others, hts⟩, hus⟩
  exact after_pure ⟨⟨⟨first, others⟩, hs ▸ hts⟩, hus⟩

end Reader

end PizzaLang
