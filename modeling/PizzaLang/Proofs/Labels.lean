import PizzaLang.Proofs.Derivation

/-!
# Where labels come from

Whatever the tree of a statement says has been read off tokens: a node stands where a token stands,
and its value is the text of a token, a name in lower case, some texts put together, or a fixed word
(`PizzaLang.SyntaxTree.MadeFrom`). A property that tokens have so passes to nodes, and this is shown
once for all properties (`PizzaLang.Derivation.Statement.madeFrom`).
-/

namespace PizzaLang

/-- **All labels of a tree** have a property. -/
inductive Tree.All {α : Type} (P : α → Prop) : Tree α → Prop
  | node {label : α} {children : List (Tree α)} : P label → (∀ t ∈ children, All P t) →
      All P (.node label children)

/-- **A value is made from tokens** of some sort, or fixed by the grammar. -/
inductive ValueFrom (T : Token → Prop) : String → Prop
  | kind (k : NodeKind) : ValueFrom T k.label
  | fixed {word : String} : word ∈ ["include", "resize", "save"] → ValueFrom T word
  | number {t : Token} : T t → ValueFrom T t.text
  | name {t : Token} : T t → ValueFrom T (Text.lower t.text)
  | quoted {ts : List Token} : (∀ t ∈ ts, T t) → ValueFrom T (String.join (ts.map (·.text)))

/-- **A label is made from tokens** of some sort: it stands where one of them stands, and has a
value that is made from them. -/
structure NodeLabel.MadeFrom (T : Token → Prop) (label : NodeLabel) : Prop where
  position : ∃ t, T t ∧ label.position = t.position
  value : ValueFrom T label.value

/-- **A tree is made from tokens** of some sort if all its labels are. -/
abbrev SyntaxTree.MadeFrom (T : Token → Prop) (t : SyntaxTree) : Prop :=
  t.All (NodeLabel.MadeFrom T)

namespace Derivation

variable {T : Token → Prop}

section Nodes

variable {kind : NodeKind} {value : String} {t : Token} {children : List SyntaxTree}

theorem madeFrom_nodeAt (ht : T t) (hvalue : ValueFrom T value)
    (hchildren : ∀ u ∈ children, u.MadeFrom T) :
    (nodeAt kind value t children).MadeFrom T :=
  .node ⟨⟨t, ht, rfl⟩, hvalue⟩ hchildren

theorem madeFrom_nameAt (ht : T t) (hchildren : ∀ u ∈ children, u.MadeFrom T) :
    (nameAt kind t children).MadeFrom T :=
  madeFrom_nodeAt ht (.name ht) hchildren

theorem madeFrom_frameAt (ht : T t) (hchildren : ∀ u ∈ children, u.MadeFrom T) :
    (frameAt kind t children).MadeFrom T :=
  madeFrom_nodeAt ht (.kind kind) hchildren

theorem madeFrom_nil : ∀ u ∈ ([] : List SyntaxTree), u.MadeFrom T := List.forall_mem_nil _

end Nodes

/-- The texts between quotes are those of tokens, the first of which is the head. -/
theorem Quotation.exists_texts (q : Quotation) :
    ∃ bodies : List Token, q.texts = bodies.map (·.text) ∧ q.head ∈ q.tokens ∧
      ∀ t ∈ bodies, t ∈ q.tokens := by
  induction q with
  | last opening body closing => exact ⟨[body.1], rfl, by simp [head, tokens], by simp [tokens]⟩
  | more opening body closing others ih =>
    obtain ⟨bodies, htexts, -, hbodies⟩ := ih
    refine ⟨body.1 :: bodies, by rw [texts, htexts, List.map_cons], by simp [head, tokens], ?_⟩
    rw [List.forall_mem_cons, tokens]
    exact ⟨by simp, fun t ht => by simp [hbodies t ht]⟩

theorem Quotation.madeFrom (q : Quotation) (h : ∀ t ∈ q.tokens, T t) : q.tree.MadeFrom T := by
  obtain ⟨bodies, htexts, hhead, hbodies⟩ := q.exists_texts
  rw [tree, htexts]
  exact madeFrom_nodeAt (h _ hhead) (.quoted fun t ht => h t (hbodies t ht)) madeFrom_nil

theorem Chain.madeFrom {operators : List Lexeme} {α : Type} {tokens : α → List Token}
    {tree : α → SyntaxTree}
    (hoperand : ∀ a, (∀ t ∈ tokens a, T t) → (tree a).MadeFrom T)
    (c : Chain operators α) (h : ∀ t ∈ c.tokens tokens, T t) :
    (c.tree tree).MadeFrom T := by
  induction c with
  | last a => exact hoperand a h
  | link left operator right ih =>
    rw [Chain.tokens, List.forall_mem_append, List.forall_mem_cons] at h
    obtain ⟨hleft, hoperator, hright⟩ := h
    refine madeFrom_frameAt hoperator ?_
    rw [List.forall_mem_cons, List.forall_mem_singleton]
    exact ⟨hoperand left hleft, ih hright⟩

theorem numberTree_madeFrom (n : Leaf [.number]) (h : T n.1) : (numberTree n).MadeFrom T :=
  madeFrom_nodeAt h (.number h) madeFrom_nil

theorem Expression.madeFrom (e : Expression) (h : ∀ t ∈ Expression.tokens e, T t) :
    (Expression.tree e).MadeFrom T :=
  Chain.madeFrom (Chain.madeFrom fun n hn => numberTree_madeFrom n (hn n.1 List.mem_cons_self)) e h

theorem Use.madeFrom (u : Use) (h : ∀ t ∈ u.tokens, T t) : u.tree.MadeFrom T := by
  rw [Use.tokens, List.forall_mem_cons, List.forall_mem_cons, List.forall_mem_append] at h
  obtain ⟨hname, -, hquantity, -⟩ := h
  exact madeFrom_nameAt hname
    (List.forall_mem_singleton.mpr (Expression.madeFrom u.quantity hquantity))

theorem Resize.madeFrom (r : Resize) (h : ∀ t ∈ r.tokens, T t) : r.tree.MadeFrom T := by
  rw [Resize.tokens, List.forall_mem_cons, List.forall_mem_singleton] at h
  exact madeFrom_nodeAt h.1 (.fixed (by simp))
    (List.forall_mem_singleton.mpr (numberTree_madeFrom r.side h.2))

theorem Definition.madeFrom (d : Definition) (h : ∀ t ∈ d.tokens, T t) : d.tree.MadeFrom T := by
  rw [Definition.tokens, List.forall_mem_cons] at h
  obtain ⟨hkeyword, hbody⟩ := h
  cases d with
  | ingredient keyword name opening path closing resize semicolon =>
    rw [body, List.forall_mem_cons, List.forall_mem_cons, List.forall_mem_append,
      List.forall_mem_cons, List.forall_mem_append, List.forall_mem_flatMap] at hbody
    obtain ⟨hname, -, hpath, -, hresize, -⟩ := hbody
    refine madeFrom_frameAt hkeyword (List.forall_mem_cons.mpr ⟨madeFrom_nameAt hname ?_, ?_⟩)
    · exact List.forall_mem_singleton.mpr (path.madeFrom hpath)
    · rw [List.forall_mem_map]
      exact fun r hr => r.madeFrom (hresize r hr)
  | specialty keyword name opening first others closing =>
    rw [body, List.forall_mem_cons, List.forall_mem_cons, List.forall_mem_append,
      List.forall_mem_flatMap] at hbody
    obtain ⟨hname, -, huses, -⟩ := hbody
    refine madeFrom_frameAt hkeyword (List.forall_mem_singleton.mpr (madeFrom_nameAt hname ?_))
    rw [List.forall_mem_map]
    exact fun p hp => p.1.madeFrom (List.forall_mem_append.mp (huses p hp)).1

theorem AddClause.madeFrom (a : AddClause) (h : ∀ t ∈ a.tokens, T t) : a.tree.MadeFrom T := by
  rw [tokens, body, List.forall_mem_cons, List.forall_mem_append, List.forall_mem_flatMap] at h
  obtain ⟨hkeyword, hfirst, hothers⟩ := h
  refine madeFrom_frameAt hkeyword (List.forall_mem_cons.mpr ⟨a.first.madeFrom hfirst, ?_⟩)
  rw [List.forall_mem_map]
  exact fun p hp => p.2.madeFrom (List.forall_mem_cons.mp (hothers p hp)).2

theorem OfClause.madeFrom (o : OfClause) (h : ∀ t ∈ o.tokens, T t) : o.tree.MadeFrom T := by
  rw [tokens, body, List.forall_mem_cons, List.forall_mem_cons, List.forall_mem_flatMap] at h
  obtain ⟨hkeyword, hfirst, hothers⟩ := h
  refine madeFrom_frameAt hkeyword
    (List.forall_mem_cons.mpr ⟨madeFrom_nameAt hfirst madeFrom_nil, ?_⟩)
  rw [List.forall_mem_map]
  exact fun p hp => madeFrom_nameAt (hothers p hp p.2.1 (by simp)) madeFrom_nil

theorem SaveClause.madeFrom (c : SaveClause) (h : ∀ t ∈ c.tokens, T t) : c.tree.MadeFrom T := by
  rw [tokens, body, List.forall_mem_cons, List.forall_mem_cons] at h
  obtain ⟨hkeyword, -, hname⟩ := h
  exact madeFrom_nodeAt hkeyword (.fixed (by simp))
    (List.forall_mem_singleton.mpr (c.name.madeFrom hname))

theorem Toppings.madeFrom (s : Toppings) (h : ∀ t ∈ s.tokens, T t) :
    ∀ t ∈ s.trees, t.MadeFrom T := by
  cases s with
  | add clause => exact List.forall_mem_singleton.mpr (clause.madeFrom h)
  | names clause added =>
    rw [tokens, List.forall_mem_append, List.forall_mem_flatMap] at h
    rw [trees, List.forall_mem_cons, List.forall_mem_map]
    exact ⟨clause.madeFrom h.1, fun a ha => a.madeFrom (h.2 a ha)⟩

theorem Make.madeFrom (m : Make) (h : ∀ t ∈ m.keyword.1 :: m.body, T t) : m.tree.MadeFrom T := by
  rw [body, pizzaBody, List.forall_mem_cons, List.forall_mem_cons, List.forall_mem_cons,
    List.forall_mem_append, List.forall_mem_append, List.forall_mem_flatMap] at h
  obtain ⟨hkeyword, hsize, hpizza, ⟨htoppings, hsave⟩, -⟩ := h
  refine madeFrom_frameAt hkeyword (List.forall_mem_singleton.mpr
    (madeFrom_nameAt hsize (List.forall_mem_singleton.mpr (madeFrom_frameAt hpizza ?_))))
  rw [List.forall_mem_append, List.forall_mem_map]
  exact ⟨m.toppings.madeFrom htoppings, fun c hc => c.madeFrom (hsave c hc)⟩

/-- **All labels of a statement are made from its tokens.** -/
theorem Statement.madeFrom (s : Statement) (h : ∀ t ∈ s.tokens, T t) : s.tree.MadeFrom T := by
  cases s with
  | inclusion keyword path semicolon =>
    rw [tokens, body, List.forall_mem_cons, List.forall_mem_append] at h
    exact madeFrom_nodeAt h.1 (.fixed (by simp))
      (List.forall_mem_singleton.mpr (path.madeFrom h.2.1))
  | definition keyword defined =>
    rw [tokens, body, List.forall_mem_cons] at h
    exact madeFrom_frameAt h.1 (List.forall_mem_singleton.mpr (defined.madeFrom h.2))
  | make order => exact order.madeFrom h

end Derivation

end PizzaLang
