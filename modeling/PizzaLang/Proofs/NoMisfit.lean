import PizzaLang.Proofs.Confinement
import PizzaLang.Proofs.Failure
import PizzaLang.Proofs.Relocation
import PizzaLang.Proofs.Shape
import PizzaLang.Proofs.Spelling

/-!
# No text is a misfit

What reads tokens and what gives trees their meaning agree on nothing but the shape of trees.
Where the second finds a tree that it cannot make sense of, that is a misfit, and no fault of the
program. Trees of the right shape (`PizzaLang.SyntaxTree.IsStatement`) are misfits for one reason
only: the word for the size of a pizza is none of the three
(`PizzaLang.Compiler.Fails.unknownSize`). Tokens that are a program can have such a word, but
those of a text cannot, because the text of a reserved word is the word. A name that has been looked
up never turns out to be of another kind, whatever the shape of the tree
(`PizzaLang.SymbolTable.fit_useIngredient`, `PizzaLang.SymbolTable.fit_useSpecialty`).

The result is `PizzaLang.Compiler.no_misfit`.
-/

namespace PizzaLang

variable {α β : Type}

/-! ### Results without misfits -/

/-- **A result is fit** if it is no misfit; it may be any other error. -/
def Fit (x : Except SemanticError α) : Prop :=
  ∀ kind position detail, x ≠ .error (.misfit kind position detail)

theorem fit_ok {a : α} : Fit (.ok a) := by
  intro kind position detail h
  cases h

/-- An error of another kind is fit. -/
theorem fit_error {e : SemanticError}
    (h : ∀ kind position detail, e ≠ .misfit kind position detail) :
    Fit (.error e : Except SemanticError α) := by
  intro kind position detail he
  exact h kind position detail (Except.error.inj he)

theorem Fit.bind {x : Except SemanticError α} {f : α → Except SemanticError β} (hx : Fit x)
    (hf : ∀ a, x = .ok a → Fit (f a)) : Fit (x >>= f) := by
  intro kind position detail h
  rcases Fallible.bind_eq_error_iff.mp h with h | ⟨a, ha, h⟩
  · exact hx _ _ _ h
  · exact hf a ha _ _ _ h

theorem fit_foldlM {step : β → α → Except SemanticError β} {as : List α} {b : β}
    (h : ∀ a ∈ as, ∀ b, Fit (step b a)) : Fit (as.foldlM step b) := by
  induction as generalizing b with
  | nil => exact fit_ok
  | cons a as ih =>
    rw [List.forall_mem_cons] at h
    rw [List.foldlM_cons]
    exact (h.1 b).bind fun b' _ => ih h.2

namespace SyntaxTree

theorem fit_inRange {position : Position} {n : Int} : Fit (inRange position n) := by
  rw [inRange]
  split
  · exact fit_ok
  · exact fit_error (by simp)

theorem fit_operate {label : NodeLabel} {x y : Int} : Fit (operate label x y) := by
  rw [operate]
  split
  · exact fit_inRange
  · exact fit_inRange
  · exact fit_inRange
  · split
    · exact fit_error (by simp)
    · exact fit_inRange

/-- An expression has a value, or there is something wrong with a number. -/
theorem IsExpression.fit {t : SyntaxTree} (h : t.IsExpression) : Fit t.evaluate := by
  induction h with
  | number =>
    rw [evaluate, if_pos rfl, readQuantity]
    split
    · exact fit_inRange
    · exact fit_error (by simp)
  | @operation kind value position left right hkind _ _ ihleft ihright =>
    have hnumber : kind ≠ .number := by
      rintro rfl
      cases hkind
    rw [evaluate, if_neg hnumber, if_pos hkind]
    exact ihleft.bind fun x _ => ihright.bind fun y _ => fit_operate

end SyntaxTree

/-! ### Statements -/

namespace SymbolTable

open SyntaxTree

variable {t : SymbolTable} {u : SyntaxTree}

theorem fit_lookup {kind : SymbolKind} : Fit (t.lookup u kind) := by
  rw [lookup]
  split
  · exact fit_error (by simp)
  · split
    · exact fit_ok
    · exact fit_error (by simp)

theorem fit_useIngredient : Fit (t.useIngredient u) :=
  fun _ _ _ h => fit_lookup _ _ _ (useIngredient_eq_error_iff.mp h)

theorem fit_useSpecialty : Fit (t.useSpecialty u) :=
  fun _ _ _ h => fit_lookup _ _ _ (useSpecialty_eq_error_iff.mp h)

theorem fit_portionOf (h : u.IsUse) : Fit (t.portionOf u) := by
  cases h with
  | intro hquantity =>
    refine fit_useIngredient.bind fun i _ => hquantity.fit.bind fun q _ => ?_
    split
    · exact fit_error (by simp)
    · exact fit_ok

theorem fit_setPortion {portions : Listing Portion} (h : u.IsUse) :
    Fit (t.setPortion portions u) :=
  (fit_portionOf h).bind fun _ _ => fit_ok

theorem fit_keepPortion {portions : Listing Portion} (h : u.IsUse) :
    Fit (t.keepPortion portions u) :=
  (fit_portionOf h).bind fun _ _ => fit_ok

theorem fit_keepSpecialty {specialties : Listing Specialty} :
    Fit (t.keepSpecialty specialties u) :=
  fit_useSpecialty.bind fun _ _ => fit_ok

theorem fit_specialtyOf (h : u.IsDefinition) (hkind : u.kind = .specialty) :
    Fit (t.specialtyOf u) := by
  cases h with
  | ingredient => cases hkind
  | resized => cases hkind
  | specialty huses =>
    exact (fit_foldlM fun u hu _ => fit_setPortion (huses u hu)).bind fun _ _ => fit_ok

theorem fit_addClause {pizza : Pizza} (h : u.IsClause) : Fit (t.addClause pizza u) := by
  cases h with
  | add huses =>
    exact (fit_foldlM fun u hu _ => fit_keepPortion (huses u hu)).bind fun _ _ => fit_ok
  | names => exact (fit_foldlM fun _ _ _ => fit_keepSpecialty).bind fun _ _ => fit_ok
  | save => exact fit_ok

end SymbolTable

theorem SyntaxTree.IsDefinition.fit {d name path : SyntaxTree} {intrinsic : ImageSize}
    (h : d.IsDefinition) (hkind : d.kind = .ingredient) :
    Fit (ingredientOf d name path intrinsic) := by
  have hdrawn : Fit (drawnSize d intrinsic) := by
    cases h with
    | ingredient => exact fit_ok
    | @resized _ _ _ resize _ number =>
      refine Fit.bind (x := SyntaxTree.child (.node resize [number]) 0) fit_ok fun side _ => ?_
      split
      · exact fit_ok
      · exact fit_error (by simp)
    | specialty => cases hkind
  refine hdrawn.bind fun size _ => ?_
  split
  · exact fit_error (by simp)
  · split
    · exact fit_error (by simp)
    · exact fit_ok

/-- **The size of an order is unknown**, and that is the error. -/
def SyntaxTree.UnknownSize (t : SyntaxTree) (e : SemanticError) : Prop :=
  ∃ size, t.kind = .make ∧ t.child? 0 = some size ∧ PizzaSize.ofWord? size.value = none ∧
    e = size.misfit (.unknownSize size.value)

/-- An order is a misfit only for the word that it has for a size. -/
theorem SymbolTable.unknownSize_of_pizzaOf {t : SymbolTable} {u : SyntaxTree} {kind : NodeKind}
    {position : Position} {detail : Misfit} (hu : u.IsStatement) (hkind : u.kind = .make)
    (h : t.pizzaOf u = .error (.misfit kind position detail)) :
    u.UnknownSize (.misfit kind position detail) := by
  cases hu with
  | inclusion => cases hkind
  | definition => cases hkind
  | @make _ _ size pizza clauses hclauses =>
    rcases Fallible.bind_eq_error_iff.mp h with h | ⟨node, hnode, h⟩
    · cases h
    obtain rfl : .node size [.node pizza clauses] = node := Except.ok.inj hnode
    split at h
    · next hword => exact ⟨_, rfl, rfl, hword, (Except.error.inj h).symm⟩
    · next word hword =>
      rcases Fallible.bind_eq_error_iff.mp h with h | ⟨body, hbody, h⟩
      · cases h
      obtain rfl : .node pizza clauses = body := Except.ok.inj hbody
      exact absurd h (fit_foldlM (fun c hc _ => fit_addClause (hclauses c hc)) _ _ _)

/-! ### Compilations -/

namespace Compiler

variable {c : Compiler} {chain : List Path} {m : Menu} {t d : SyntaxTree} {e : CompileError}
  {kind : NodeKind} {position : Position} {detail : Misfit}

/-- A text that cannot be read is not a misfit. -/
theorem forestOf_ne_semantic {unit : Path} {text : String} {e : SemanticError} :
    forestOf unit text ≠ .error (.semantic e) := by
  intro h
  rcases forestOf_fails h with ⟨_, h⟩ | ⟨_, h⟩ | ⟨_, h⟩ <;> cases h

/-- A definition of the right shape declares nothing because its image cannot be drawn, or because
its specialty has no meaning. -/
theorem Undeclared.semantic_cases {unit : Path} {table : SymbolTable} {e : SemanticError}
    (hd : d.IsDefinition) (h : c.Undeclared unit table d (.semantic e)) :
    (d.kind = .ingredient ∧ ∃ name path intrinsic, ingredientOf d name path intrinsic = .error e) ∨
      d.kind = .specialty ∧ table.specialtyOf d = .error e := by
  generalize he : CompileError.semantic e = e' at h
  cases h with
  | stray hingredient hspecialty =>
    cases hd with
    | ingredient => exact absurd rfl hingredient
    | resized => exact absurd rfl hingredient
    | specialty => exact absurd rfl hspecialty
  | nameless _ hchild => cases hd <;> cases hchild
  | imageless hkind hname hchild =>
    cases hd with
    | ingredient =>
      obtain rfl := Except.ok.inj hname
      cases hchild
    | resized =>
      obtain rfl := Except.ok.inj hname
      cases hchild
    | specialty => cases hkind
  | unmeasured => cases he
  | undrawn hkind _ _ _ hdrawn =>
    obtain rfl := CompileError.semantic.inj he
    exact Or.inl ⟨hkind, _, _, _, hdrawn⟩
  | specialty hkind hmade =>
    obtain rfl := CompileError.semantic.inj he
    exact Or.inr ⟨hkind, hmade⟩

/-- A statement of the right shape is at fault for a name that is there already, for a definition
that declares nothing, or for an order without a meaning. -/
theorem Faulty.semantic_cases {e : SemanticError} (ht : t.IsStatement)
    (h : c.Faulty chain m t (.semantic e)) :
    (∃ clash, e = .duplicate clash) ∨
      (∃ d, t.kind = .definition ∧ t.child 0 = .ok d ∧
        c.Undeclared m.unit m.symbols d (.semantic e)) ∨
      t.kind = .make ∧ m.symbols.pizzaOf t = .error e := by
  generalize he : CompileError.semantic e = e' at h
  cases h with
  | stray hinclusion hdefinition hmake =>
    cases ht with
    | inclusion => exact absurd rfl hinclusion
    | definition => exact absurd rfl hdefinition
    | make => exact absurd rfl hmake
  | pathless _ hchild => cases ht <;> cases hchild
  | itself => cases he
  | unlocated => cases he
  | busy => cases he
  | unloaded => cases he
  | deep => cases he
  | unread _ _ hread =>
    subst he
    exact absurd hread forestOf_ne_semantic
  | overlap => exact Or.inl ⟨_, CompileError.semantic.inj he⟩
  | undefined _ hchild => cases ht <;> cases hchild
  | undeclared hkind hd hundeclared =>
    subst he
    exact Or.inr (Or.inl ⟨_, hkind, hd, hundeclared⟩)
  | clash => exact Or.inl ⟨_, CompileError.semantic.inj he⟩
  | order hkind hmade =>
    obtain rfl := CompileError.semantic.inj he
    exact Or.inr (Or.inr ⟨hkind, hmade⟩)

/-- A statement of the right shape is a misfit only for the word that it has for a size. -/
theorem Faulty.unknownSize (ht : t.IsStatement)
    (h : c.Faulty chain m t (.semantic (.misfit kind position detail))) :
    t.UnknownSize (.misfit kind position detail) := by
  rcases h.semantic_cases ht with ⟨_, he⟩ | ⟨d, hkind, hd, hundeclared⟩ | ⟨hkind, hmade⟩
  · cases he
  · cases ht with
    | inclusion => cases hkind
    | definition hdefined =>
      obtain rfl := Except.ok.inj hd
      rcases hundeclared.semantic_cases hdefined with ⟨hkind, _, _, _, hdrawn⟩ | ⟨hkind, hmade⟩
      · exact absurd hdrawn (hdefined.fit hkind _ _ _)
      · exact absurd hmade (SymbolTable.fit_specialtyOf hdefined hkind _ _ _)
    | make => cases hkind
  · exact SymbolTable.unknownSize_of_pizzaOf ht hkind hmade

end Compiler

/-! ### Sizes in a text -/

namespace Derivation

/-- The token for a size is one of those that an order is derived from. -/
theorem Program.size_mem_tokens {p : Program} {order : Make}
    (h : .make order ∈ p.statements) : order.size.1 ∈ p.tokens :=
  List.mem_flatMap.mpr ⟨_, h, List.mem_cons_of_mem _ List.mem_cons_self⟩

/-- A statement whose size is unknown has a token for it that is no word for a size. -/
theorem Program.exists_token_of_unknownSize {p : Program} {unit : Path} {t : SyntaxTree}
    {e : SemanticError} (ht : t ∈ (p.tree unit).children) (h : t.UnknownSize e) :
    ∃ token ∈ p.tokens, token.lexeme ∈ [.kwBig, .kwMedium, .kwPersonal] ∧
      PizzaSize.ofWord? (Text.lower token.text) = none ∧
      e = .misfit .size token.position (.unknownSize (Text.lower token.text)) := by
  obtain ⟨size, hkind, hsize, hword, rfl⟩ := h
  obtain ⟨statement, hmem, rfl⟩ := List.mem_map.mp ht
  cases statement with
  | inclusion => cases hkind
  | definition => cases hkind
  | make order =>
    obtain rfl : nameAt .size order.size.1 [order.pizzaTree] = size := Option.some.inj hsize
    exact ⟨order.size.1, size_mem_tokens hmem, order.size.2, hword, rfl⟩

end Derivation

/-- A word for a size stands for one. -/
theorem ofWord?_lower_of_spells {l : Lexeme} {text : String}
    (hl : l ∈ [Lexeme.kwBig, .kwMedium, .kwPersonal]) (h : l.Spells text) :
    PizzaSize.ofWord? (Text.lower text) ≠ none := by
  simp only [List.mem_cons, List.not_mem_nil, or_false] at hl
  rcases hl with rfl | rfl | rfl <;> obtain rfl := h <;> decide +kernel

/-- **The sizes in a text are known.** -/
theorem IsProgram.not_unknownSize {unit : Path} {text : String} {tree t : SyntaxTree}
    {e : SemanticError} (h : IsProgram unit text tree) (ht : t ∈ tree.children) :
    ¬t.UnknownSize e := by
  intro hsize
  obtain ⟨f, hf, htree⟩ := h
  obtain ⟨tokens, htokens, hparse⟩ := Fallible.bind_eq_ok_iff.mp hf
  obtain ⟨d, rfl, htree'⟩ := tree?_of_parse (Fallible.mapError_eq_ok_iff.mp hparse)
  obtain rfl := Option.some.inj (htree.symm.trans htree')
  obtain ⟨token, hmem, hlexeme, hword, -⟩ := d.exists_token_of_unknownSize ht hsize
  have hspelled := wellSpelled_of_tokenize (tokensOf_eq_ok_iff.mp htokens).2
  exact ofWord?_lower_of_spells hlexeme (hspelled.spells token hmem) hword

namespace Compiler

variable {c : Compiler} {chain : List Path} {m : Menu} {t : SyntaxTree} {kind : NodeKind}
  {position : Position} {detail : Misfit}

/-- **A statement that fails as a misfit has an unknown size itself**: units that are included
are texts, and those have no misfits. -/
theorem Fails.unknownSize (ht : t.IsStatement)
    (h : c.Fails chain m t (.semantic (.misfit kind position detail))) :
    t.UnknownSize (.misfit kind position detail) := by
  generalize he : CompileError.semantic (.misfit kind position detail) = e at h
  induction h with
  | fault hfaulty =>
    subst he
    exact hfaulty.unknownSize ht
  | @inside _ _ _ _ tree u before after _ _ _ _ hto _ hsplit _ _ ih =>
    obtain ⟨path, text, -, -, -, hprogram⟩ := hto
    have hu : u ∈ tree.children := by simp [hsplit]
    exact absurd (ih (hprogram.wellShaped u hu) he) (hprogram.not_unknownSize hu)

/-- **No text is a misfit**, whatever units and images there are, and no node is ever looked for
outside of the forest.

* A compilation of a text never ends with a misfit, of its own statements or of those of a unit
  that it includes.
* Of tokens that are a program, whatever their texts are, the only misfit is the size of a pizza,
  and only if the token for it is no word for a size.
* Reading tokens takes no step that names a node which is not there, on success and on failure: not
  one is in the history of the forest. So all links and the root lead to nodes of the forest, and
  the way down from the root meets no others. -/
theorem no_misfit (c : Compiler) :
    (∀ unit text s e s', c.compileUnit unit text s = .error e s' →
      ∀ kind position detail, e ≠ .semantic (.misfit kind position detail)) ∧
    (∀ unit tokens f s kind position detail s', parse unit tokens = .ok f →
      c.analyze unit f.tree? s = .error (.semantic (.misfit kind position detail)) s' →
      ∃ token ∈ tokens, token.lexeme ∈ [.kwBig, .kwMedium, .kwPersonal] ∧
        Text.lower token.text ∉ ["big", "medium", "personal"] ∧ kind = .size ∧
        position = token.position ∧ detail = .unknownSize (Text.lower token.text)) ∧
    ∀ cursor : Cursor, cursor.forest.InRange →
      (∀ f, cursor.readProgram.1 = .ok f → cursor.forest.Grows f ∧ f.InRange ∧
        ∀ root, f.root = some root → ∀ i ∈ f.documentOrder root, i < f.size) ∧
      ∀ e, cursor.readProgram.1 = .error e →
        cursor.forest.Grows cursor.readProgram.2.forest ∧ cursor.readProgram.2.forest.InRange := by
  refine ⟨?_, ?_, ?_⟩
  · rintro unit text s _ s' h kind position detail rfl
    generalize he : CompileError.semantic (.misfit kind position detail) = e at h
    cases compileNested_fails h with
    | deep => cases he
    | unread hread =>
      subst he
      exact forestOf_ne_semantic hread
    | @inside tree _ hprogram hfails =>
      obtain ⟨before, t, after, m, walk, hsplit, -, hfails⟩ := hfails
      subst he
      have ht : t ∈ tree.children := by simp [hsplit]
      exact hprogram.not_unknownSize ht (hfails.unknownSize (hprogram.wellShaped t ht))
  · intro unit tokens f s kind position detail s' hparse h
    obtain ⟨d, rfl, htree⟩ := tree?_of_parse hparse
    rw [htree] at h
    obtain ⟨before, t, after, m, walk, hsplit, -, hfails⟩ := analyze_fails h
    have ht : t ∈ (d.tree unit).children := by simp [hsplit]
    obtain ⟨token, hmem, hlexeme, hword, he⟩ :=
      d.exists_token_of_unknownSize ht (hfails.unknownSize (d.wellShaped unit t ht))
    obtain ⟨rfl, rfl, rfl⟩ := SemanticError.misfit.inj he
    exact ⟨token, hmem, hlexeme, PizzaSize.ofWord?_eq_none_iff.mp hword, rfl, rfl, rfl⟩
  · intro cursor hrange
    obtain ⟨hok, herror⟩ := cursor.grows_of_readProgram
    refine ⟨fun f hf => ?_, fun e he => ⟨herror e he, hrange.of_grows (herror e he)⟩⟩
    have hf' := hrange.of_grows (hok f hf)
    exact ⟨hok f hf, hf', fun root hroot => hf'.lt_size_of_mem_documentOrder (hf'.root root hroot)⟩

/-- An order whose word for the size is none. -/
def hugeOrder : List Token :=
  [(.kwMake, "make"), (.kwBig, "Huge"), (.kwPizza, "pizza"), (.kwOf, "of"), (.literal, "hot"),
    (.semicolon, ";")].map fun (lexeme, text) => ⟨lexeme, text, default⟩

/-- The order is a misfit for its size, an order of what is not there fails for another reason,
and tokens that end too early have grown a forest in range. -/
theorem no_misfit_hugeOrder :
    (∃ e s', pantry.compileUnit ⟨"main.pf"⟩ "make big pizza of cold;" (.ofChain []) = .error e s' ∧
      e ≠ .semantic (.misfit .size default (.unknownSize "huge"))) ∧
    (∃ f s', parse ⟨"main.pf"⟩ hugeOrder = .ok f ∧
      pantry.analyze ⟨"main.pf"⟩ f.tree? (.ofChain []) =
        .error (.semantic (.misfit .size default (.unknownSize "huge"))) s' ∧
      ∃ token ∈ hugeOrder, token.lexeme ∈ [.kwBig, .kwMedium, .kwPersonal] ∧
        Text.lower token.text ∉ ["big", "medium", "personal"]) ∧
    ∃ e, (Cursor.ofTokens ⟨"main.pf"⟩ (hugeOrder.take 5)).readProgram.1 = .error e ∧
      Forest.empty.Grows (Cursor.ofTokens ⟨"main.pf"⟩ (hugeOrder.take 5)).readProgram.2.forest ∧
      (Cursor.ofTokens ⟨"main.pf"⟩ (hugeOrder.take 5)).readProgram.2.forest.InRange := by
  obtain ⟨htext, htokens, hcursor⟩ := no_misfit pantry
  refine ⟨?_, ?_, ?_⟩
  · have h : Stateful.fails (pantry.compileUnit ⟨"main.pf"⟩ "make big pizza of cold;" (.ofChain []))
        (fun _ => true) = true := by
      decide +kernel
    obtain ⟨e, s', he, -⟩ := Stateful.exists_of_fails h
    exact ⟨e, s', he, htext _ _ _ _ _ he _ _ _⟩
  · cases hf : parse ⟨"main.pf"⟩ hugeOrder with
    | error e =>
      have h : (parse ⟨"main.pf"⟩ hugeOrder).toBool = true := by decide +kernel
      rw [hf] at h
      cases h
    | ok f =>
      have h : (parse ⟨"main.pf"⟩ hugeOrder).toOption.any (fun f => Stateful.fails
          (pantry.analyze ⟨"main.pf"⟩ f.tree? (.ofChain []))
          fun e => e = .semantic (.misfit .size default (.unknownSize "huge"))) = true := by
        decide +kernel
      rw [hf] at h
      obtain ⟨e, s', he, htest⟩ := Stateful.exists_of_fails h
      obtain rfl := of_decide_eq_true htest
      obtain ⟨token, hmem, hlexeme, hword, -⟩ := htokens _ _ _ _ _ _ _ _ hf he
      exact ⟨f, s', rfl, he, token, hmem, hlexeme, hword⟩
  · cases he : (Cursor.ofTokens ⟨"main.pf"⟩ (hugeOrder.take 5)).readProgram.1 with
    | error e => exact ⟨e, rfl, (hcursor _ Forest.inRange_empty).2 e he⟩
    | ok f =>
      have h : (Cursor.ofTokens ⟨"main.pf"⟩ (hugeOrder.take 5)).readProgram.1.toBool = false := by
        decide +kernel
      rw [he] at h
      cases h

end Compiler

end PizzaLang
