import PizzaLang.Proofs.Grammar
import PizzaLang.Proofs.Lookahead

/-!
# Syntax errors are reported at the first chance

A list of tokens that is no program is refused at the first token with which it could not become
one any more. Up to there it could (`PizzaLang.Derivation.Viable`), and each lexeme that the error
names as expected would have let it go on.

That the tokens so far could go on is followed through the readers: a reader for a rule of the
grammar that fails has taken tokens that open a phrase of the rule, and they open one with each of
the expected lexemes behind them too (`PizzaLang.Reader.Fair`). That the next token is the first
wrong one is because readers look no further (`PizzaLang.Proofs.Lookahead`): whatever stands behind
it, it is refused.

The result is `PizzaLang.parse_error_earliest`.
-/

namespace PizzaLang

/-! ### Phrases to be continued -/

namespace Derivation

instance {l : Lexeme} {ls : List Lexeme} : Inhabited (Leaf (l :: ls)) :=
  ⟨⟨⟨l, "", default⟩, List.mem_cons_self⟩⟩

instance : Inhabited Quotation := ⟨.last default default default⟩

instance {operators : List Lexeme} {α : Type} [Inhabited α] : Inhabited (Chain operators α) :=
  ⟨.last default⟩

instance : Inhabited Use := ⟨⟨default, default, default, default⟩⟩

instance : Inhabited Toppings := ⟨.add ⟨default, default, []⟩⟩

instance : Inhabited Definition :=
  ⟨.ingredient default default default default default none default⟩

instance : Inhabited Statement := ⟨.inclusion default default default⟩

variable {δ δ' : Type} {tokens : δ → List Token} {tokens' : δ' → List Token}
  {front ts : List Token}

/-- **Tokens open a phrase** of some sort if one starts with them. -/
def Opens (tokens : δ → List Token) (ts : List Token) : Prop := ∃ d, ts <+: tokens d

/-- What opens a part of a phrase opens the phrase, after what stands in front of the part. -/
theorem Opens.part (h : Opens tokens ts) (hpart : ∀ d, Opens tokens' (front ++ tokens d)) :
    Opens tokens' (front ++ ts) := by
  obtain ⟨d, hd⟩ := h
  obtain ⟨d', hd'⟩ := hpart d
  exact ⟨d', ((List.prefix_append_right_inj front).mpr hd).trans hd'⟩

end Derivation

open PizzaLang.Derivation

namespace SyntaxError

/-- The lexemes that could have come. -/
def wanted : SyntaxError → List Lexeme
  | expected lexemes _ => lexemes
  | ended lexemes _ => lexemes
  | noStatement _ => []

/-- The token that has been taken although it starts nothing. -/
def mistaken : SyntaxError → List Token
  | noStatement found => [found]
  | _ => []

/-- **An error is fair** after some tokens if they open a phrase, and also with any of the wanted
lexemes behind them. -/
def Fair {δ : Type} (tokens : δ → List Token) (ts : List Token) (e : SyntaxError) : Prop :=
  Opens tokens ts ∧ ∀ t : Leaf e.wanted, Opens tokens (ts ++ [t.1])

theorem Fair.part {δ δ' : Type} {tokens : δ → List Token} {tokens' : δ' → List Token}
    {front ts : List Token} {e : SyntaxError} (h : e.Fair tokens ts)
    (hpart : ∀ d, Opens tokens' (front ++ tokens d)) : e.Fair tokens' (front ++ ts) := by
  refine ⟨h.1.part hpart, fun t => ?_⟩
  rw [List.append_assoc]
  exact (h.2 t).part hpart

end SyntaxError

namespace Reader

variable {α β δ δ' : Type} {r : Reader α} {k : α → Reader β} {tokens : δ → List Token}
  {tokens' : δ' → List Token} {front : List Token} {lexemes : List Lexeme}

/-! ### Fair readers -/

/-- **A reader is fair within a phrase** of which some tokens have been taken: when it fails, what
has been taken in all opens a phrase, and does so with any of the wanted lexemes behind it. -/
def FairAfter (front : List Token) (r : Reader α) (tokens : δ → List Token) : Prop :=
  ∀ s e s', r s = .error e s' →
    ∃ good, s.rest = good ++ (e.mistaken ++ s'.rest) ∧ e.Fair tokens (front ++ good)

/-- **A reader is fair** to the phrases that it is for. -/
def Fair (r : Reader α) (tokens : δ → List Token) : Prop :=
  ∀ s e s', r s = .error e s' →
    ∃ good, s.rest = good ++ (e.mistaken ++ s'.rest) ∧ e.Fair tokens good

theorem FairAfter.fair (h : FairAfter [] r tokens) : Fair r tokens := h

/-- A part of a phrase is read, and then the rest of it. -/
theorem fairAfter_bind (hderives : Derives r tokens) (hfair : Fair r tokens)
    (hpart : ∀ d, Opens tokens' (front ++ tokens d))
    (hk : ∀ d a, FairAfter (front ++ tokens d) (k a) tokens') :
    FairAfter front (r >>= k) tokens' := by
  intro s e s' h
  rcases Stateful.bind_eq_error_iff.mp h with h | ⟨a, t, ha, h⟩
  · obtain ⟨good, hs, hgood⟩ := hfair s e s' h
    exact ⟨good, hs, hgood.part hpart⟩
  · obtain ⟨d, hs⟩ := hderives s.rest rfl ha
    obtain ⟨good, ht, hgood⟩ := hk d a t e s' h
    refine ⟨tokens d ++ good, by rw [hs, ht, List.append_assoc], ?_⟩
    rwa [← List.append_assoc]

theorem Fair.after (h : Fair r tokens) (hpart : ∀ d, Opens tokens' (front ++ tokens d)) :
    FairAfter front r tokens' := by
  intro s e s' he
  obtain ⟨good, hs, hgood⟩ := h s e s' he
  exact ⟨good, hs, hgood.part hpart⟩

theorem fairAfter_expect {k : Token → Reader β} (hne : lexemes ≠ [])
    (hpart : ∀ t : Leaf lexemes, Opens tokens (front ++ [t.1]))
    (hk : ∀ t : Leaf lexemes, FairAfter (front ++ [t.1]) (k t.1) tokens) :
    FairAfter front (expect lexemes >>= k) tokens := by
  intro s e s' h
  rcases Stateful.bind_eq_error_iff.mp h with h | ⟨t, u, ht, h⟩
  · have hwanted : e.wanted = lexemes ∧ e.mistaken = [] ∧ s' = s := by
      simp only [expect] at h
      split at h
      · split at h
        · cases h
        · obtain ⟨rfl, rfl⟩ := EStateM.Result.error.inj h
          exact ⟨rfl, rfl, rfl⟩
      · obtain ⟨rfl, rfl⟩ := EStateM.Result.error.inj h
        exact ⟨rfl, rfl, rfl⟩
    obtain ⟨rfl, hmistaken, rfl⟩ := hwanted
    refine ⟨[], by rw [hmistaken]; rfl, ?_⟩
    rw [List.append_nil]
    refine ⟨?_, hpart⟩
    obtain ⟨l, ls, hl⟩ := List.exists_cons_of_ne_nil hne
    obtain ⟨d, hd⟩ := hpart ⟨⟨l, "", default⟩, hl ▸ List.mem_cons_self⟩
    exact ⟨d, (List.prefix_append _ _).trans hd⟩
  · obtain ⟨rest, hs, hmem, rfl⟩ := expect_eq_ok_iff.mp ht
    obtain ⟨good, hrest, hgood⟩ := hk ⟨t, hmem⟩ _ e s' h
    refine ⟨t :: good, ?_, ?_⟩
    · rw [hs, List.cons_append, ← hrest]
      rfl
    · rwa [List.append_assoc] at hgood

/-- **A reader is idle** if it always succeeds and takes nothing. -/
def Idle (r : Reader α) : Prop := ∀ s, ∃ a s', r s = .ok a s' ∧ s'.rest = s.rest

theorem idle_leaf {kind : NodeKind} {value : String} {position : Position} :
    Idle (leaf kind value position) := fun _ => ⟨_, _, rfl, rfl⟩

theorem idle_attach {parent child : NodeId} : Idle (attach parent child) :=
  fun _ => ⟨_, _, rfl, rfl⟩

theorem idle_pure {a : α} : Idle (pure a : Reader α) := fun s => ⟨a, s, rfl, rfl⟩

theorem Idle.fairAfter (h : Idle r) : FairAfter front r tokens := by
  intro s e s' he
  obtain ⟨a, t, ha, -⟩ := h s
  cases ha.symm.trans he

theorem Idle.fairAfter_bind (h : Idle r) (hk : ∀ a, FairAfter front (k a) tokens) :
    FairAfter front (r >>= k) tokens := by
  intro s e s' he
  obtain ⟨a, t, ha, hrest⟩ := h s
  rw [Stateful.bind_of_ok ha] at he
  rw [← hrest]
  exact hk a t e s' he

theorem Fair.bind_idle (h : Fair r tokens) (hk : ∀ a, Idle (k a)) : Fair (r >>= k) tokens := by
  intro s e s' he
  rcases Stateful.bind_eq_error_iff.mp he with hfails | ⟨a, t, -, hafter⟩
  · exact h s e s' hfails
  · obtain ⟨b, u, hb, -⟩ := hk a t
    cases hb.symm.trans hafter

theorem fairAfter_pure {a : α} : FairAfter front (pure a) tokens := idle_pure.fairAfter

theorem fairAfter_optional {act : Token → Reader Unit} {k : Unit → Reader β}
    (hsome : ∀ t : Leaf lexemes, FairAfter (front ++ [t.1]) (act t.1 >>= k) tokens)
    (hnone : FairAfter front (k ()) tokens) :
    FairAfter front (optional lexemes act >>= k) tokens := by
  intro s e s' h
  by_cases ha : Ahead lexemes s.rest
  · obtain ⟨t, ht, hmem⟩ := ha
    obtain ⟨rest, hs⟩ := List.head?_eq_some_iff.mp ht
    rw [optional, bind_assoc, Stateful.bind_of_ok (accept_of_mem hs hmem)] at h
    obtain ⟨good, hrest, hgood⟩ := hsome ⟨t, hmem⟩ _ e s' h
    refine ⟨t :: good, ?_, ?_⟩
    · rw [hs, List.cons_append, ← hrest]
      rfl
    · rwa [List.append_assoc] at hgood
  · rw [optional, bind_assoc, Stateful.bind_of_ok (accept_of_not_ahead ha)] at h
    exact hnone s e s' h

/-! ### Loops -/

section Loops

variable {π σ : Type} {phrase : π → List Token}

/-- **Items in a row are read fairly** if an item is, and a phrase is an item, or an item and a
phrase with something between them. -/
theorem fair_collect {item : Reader α} {more : Reader Bool} (separator : σ → List Token)
    (hderives : Derives item tokens) (hne : ∀ d, tokens d ≠ []) (hfair : Fair item tokens)
    (hreturns : Returns more)
    (hmore : ∀ s, ∃ b s', more s = .ok b s' ∧ (b = true → ∃ x, s.rest = separator x ++ s'.rest))
    (hlast : ∀ d, ∃ p, phrase p = tokens d)
    (hlink : ∀ d x p, ∃ p', phrase p' = tokens d ++ (separator x ++ phrase p)) :
    Fair (collect item more) phrase := by
  intro s e s' h
  have hconsumes := hderives.consumes hne
  -- every round leaves fewer tokens
  induction hn : s.rest.length using Nat.strongRecOn generalizing s with
  | ind n ih =>
    subst hn
    rw [collect_eq hconsumes hreturns] at h
    rcases Stateful.bind_eq_error_iff.mp h with hfails | ⟨a, t, ha, hafter⟩
    · obtain ⟨good, hs, hgood⟩ := hfair s e s' hfails
      refine ⟨good, hs, ?_⟩
      rw [← List.nil_append good]
      refine hgood.part fun d => ?_
      obtain ⟨p, hp⟩ := hlast d
      exact ⟨p, hp ▸ List.prefix_rfl⟩
    obtain ⟨b, u, hb, hx⟩ := hmore t
    rw [Stateful.bind_of_ok hb] at hafter
    cases b with
    | false => cases hafter
    | true =>
      obtain ⟨x, hx⟩ := hx rfl
      obtain ⟨d, hd⟩ := hderives s.rest rfl ha
      have hlt := hconsumes s a t ha
      have hle := hreturns t true u hb
      have hrec : collect item more u = .error e s' := by
        rcases Stateful.bind_eq_error_iff.mp hafter with hfails | ⟨p, v, -, hpure⟩
        · exact hfails
        · cases hpure
      obtain ⟨good, hu, hgood⟩ := ih u.rest.length (by omega) u hrec rfl
      refine ⟨(tokens d ++ separator x) ++ good, by simp [hd, hx, hu], hgood.part fun p => ?_⟩
      obtain ⟨p', hp'⟩ := hlink d x p
      exact ⟨p', by simp [hp']⟩

/-- **Operands joined by operators are read fairly** if an operand is. -/
theorem fair_chain {operand : Reader NodeId} {operators : List Lexeme}
    (hderives : Derives operand tokens) (hne : ∀ d, tokens d ≠ []) (hfair : Fair operand tokens) :
    Fair (chain operand operators) fun c : Chain operators δ => c.tokens tokens := by
  intro s e s' h
  have hconsumes := hderives.consumes hne
  induction hn : s.rest.length using Nat.strongRecOn generalizing s with
  | ind n ih =>
    subst hn
    rw [chain_eq hconsumes] at h
    rcases Stateful.bind_eq_error_iff.mp h with hfails | ⟨left, t, hleft, hafter⟩
    · obtain ⟨good, hs, hgood⟩ := hfair s e s' hfails
      refine ⟨good, hs, ?_⟩
      rw [← List.nil_append good]
      exact hgood.part fun d => ⟨.last d, List.prefix_rfl⟩
    obtain ⟨d, hd⟩ := hderives s.rest rfl hleft
    have hlt := hconsumes s left t hleft
    by_cases ha : Ahead operators t.rest
    · obtain ⟨operator, hhead, hmem⟩ := ha
      obtain ⟨rest, ht⟩ := List.head?_eq_some_iff.mp hhead
      rw [Stateful.bind_of_ok (accept_of_mem ht hmem)] at hafter
      have hrec : chain operand operators (t.advance operator rest) = .error e s' := by
        rcases Stateful.bind_eq_error_iff.mp hafter with hfails | ⟨right, v, -, hbinary⟩
        · exact hfails
        · cases hbinary
      have hshorter : rest.length < s.rest.length := by
        rw [ht, List.length_cons] at hlt
        omega
      obtain ⟨good, hu, hgood⟩ := ih _ hshorter (t.advance operator rest) hrec rfl
      change rest = good ++ (e.mistaken ++ s'.rest) at hu
      refine ⟨(tokens d ++ [operator]) ++ good, by simp [hd, ht, hu], hgood.part fun c => ?_⟩
      exact ⟨.link d ⟨operator, hmem⟩ c, by simp [Chain.tokens]⟩
    · rw [Stateful.bind_of_ok (accept_of_not_ahead ha)] at hafter
      cases hafter

end Loops

/-! ### The readers of the grammar -/

theorem fair_name {kind : NodeKind} : Fair (name kind) fun t : Leaf [.literal] => [t.1] :=
  (fairAfter_expect (by simp) (fun t => ⟨t, List.prefix_rfl⟩) fun _ => idle_leaf.fairAfter).fair

theorem fair_number : Fair number fun n : Leaf [.number] => [n.1] :=
  (fairAfter_expect (by simp) (fun n => ⟨n, List.prefix_rfl⟩) fun _ => idle_leaf.fairAfter).fair

theorem fair_expression : Fair expression Expression.tokens :=
  fair_chain derives_term Term.tokens_ne_nil
    (fair_chain derives_number (fun _ => List.cons_ne_nil _ _) fair_number)

theorem fair_use : Fair use Use.tokens := by
  refine FairAfter.fair (fairAfter_bind derives_name fair_name (fun name => ?_) fun name _ => ?_)
  · exact ⟨⟨name, default, default, default⟩, by simp [Use.tokens]⟩
  refine fairAfter_expect (by simp) (fun opening => ?_) fun opening => ?_
  · exact ⟨⟨name, opening, default, default⟩, by simp [Use.tokens]⟩
  refine fairAfter_bind derives_expression fair_expression (fun quantity => ?_) fun quantity _ => ?_
  · exact ⟨⟨name, opening, quantity, default⟩, by simp [Use.tokens]⟩
  refine idle_attach.fairAfter_bind fun _ =>
    fairAfter_expect (by simp) (fun closing => ?_) fun _ => fairAfter_pure
  exact ⟨⟨name, opening, quantity, closing⟩, by simp [Use.tokens]⟩

theorem fair_quoted :
    Fair quoted fun p : Leaf [.quote] × Leaf [.text] × Leaf [.quote] =>
      [p.1.1, p.2.1.1, p.2.2.1] := by
  refine FairAfter.fair (fairAfter_expect (by simp) (fun opening => ?_) fun opening => ?_)
  · exact ⟨(opening, default, default), by simp⟩
  refine fairAfter_expect (by simp) (fun body => ?_) fun body => ?_
  · exact ⟨(opening, body, default), by simp⟩
  refine fairAfter_expect (by simp) (fun closing => ?_) fun _ => fairAfter_pure
  exact ⟨(opening, body, closing), by simp⟩

theorem fair_text : Fair text Quotation.tokens := by
  refine Fair.bind_idle (fair_collect (fun _ : Unit => []) derives_quoted (by simp) fair_quoted
    returns_sees (fun s => ⟨_, s, sees_apply, fun _ => ⟨(), rfl⟩⟩) ?last ?more) fun _ => idle_leaf
  case last => exact fun p => ⟨.last p.1 p.2.1 p.2.2, rfl⟩
  case more => exact fun p _ q => ⟨.more p.1 p.2.1 p.2.2 q, rfl⟩

theorem fair_ingredient (keyword : Leaf [.kwIngredient]) :
    Fair (ingredient keyword.1) fun d : { d : Definition // d.keyword = keyword.1 } =>
      d.1.body := by
  refine FairAfter.fair (idle_leaf.fairAfter_bind fun _ =>
    fairAfter_bind derives_name fair_name (fun name => ?_) fun name _ => ?_)
  · exact ⟨⟨.ingredient keyword name default default default none default, rfl⟩,
      by simp [Definition.body]⟩
  refine idle_attach.fairAfter_bind fun _ =>
    fairAfter_expect (by simp) (fun opening => ?_) fun opening => ?_
  · exact ⟨⟨.ingredient keyword name opening default default none default, rfl⟩,
      by simp [Definition.body]⟩
  refine fairAfter_bind derives_text fair_text (fun path => ?_) fun path _ => ?_
  · exact ⟨⟨.ingredient keyword name opening path default none default, rfl⟩,
      by simp [Definition.body]⟩
  refine idle_attach.fairAfter_bind fun _ =>
    fairAfter_expect (by simp) (fun closing => ?_) fun closing => ?_
  · exact ⟨⟨.ingredient keyword name opening path closing none default, rfl⟩,
      by simp [Definition.body]⟩
  refine fairAfter_optional (fun word => ?resize) ?plain
  case resize =>
    simp only [resizing, bind_assoc, pure_bind]
    refine idle_leaf.fairAfter_bind fun _ =>
      fairAfter_bind derives_number fair_number (fun side => ?_) fun side _ => ?_
    · exact ⟨⟨.ingredient keyword name opening path closing (some ⟨word, side⟩) default, rfl⟩,
        by simp [Definition.body, Resize.tokens]⟩
    refine idle_attach.fairAfter_bind fun _ => idle_attach.fairAfter_bind fun _ =>
      fairAfter_expect (by simp) (fun semicolon => ?_) fun _ => fairAfter_pure
    exact ⟨⟨.ingredient keyword name opening path closing (some ⟨word, side⟩) semicolon, rfl⟩,
      by simp [Definition.body, Resize.tokens]⟩
  case plain =>
    refine fairAfter_expect (by simp) (fun semicolon => ?_) fun _ => fairAfter_pure
    exact ⟨⟨.ingredient keyword name opening path closing none semicolon, rfl⟩,
      by simp [Definition.body]⟩

theorem fair_portion {id : NodeId} : Fair (portion id) portionTokens := by
  refine FairAfter.fair (fairAfter_bind derives_use fair_use (fun u => ?_) fun u _ => ?_)
  · exact ⟨(u, default), by simp [portionTokens]⟩
  refine idle_attach.fairAfter_bind fun _ =>
    fairAfter_expect (by simp) (fun semicolon => ?_) fun _ => fairAfter_pure
  exact ⟨(u, semicolon), by simp [portionTokens]⟩

theorem fair_portions {id : NodeId} :
    Fair (collect (portion id) (return !(← sees [.closeBrace])))
      fun p : (Use × Leaf [.semicolon]) × List (Use × Leaf [.semicolon]) =>
        (p.1 :: p.2).flatMap portionTokens := by
  refine fair_collect (fun _ : Unit => []) derives_portion (by simp [portionTokens]) fair_portion
    returns_not_sees (fun s => ⟨_, s, Stateful.bind_of_ok sees_apply, fun _ => ⟨(), rfl⟩⟩) ?_ ?_
  · exact fun d => ⟨(d, []), by simp⟩
  · exact fun d _ p => ⟨(d, p.1 :: p.2), by simp⟩

theorem fair_specialty (keyword : Leaf [.kwSpecialty]) :
    Fair (specialty keyword.1) fun d : { d : Definition // d.keyword = keyword.1 } =>
      d.1.body := by
  refine FairAfter.fair (idle_leaf.fairAfter_bind fun _ =>
    fairAfter_bind derives_name fair_name (fun name => ?_) fun name id => ?_)
  · exact ⟨⟨.specialty keyword name default default [] default, rfl⟩, by simp [Definition.body]⟩
  refine idle_attach.fairAfter_bind fun _ =>
    fairAfter_expect (by simp) (fun opening => ?_) fun opening => ?_
  · exact ⟨⟨.specialty keyword name opening default [] default, rfl⟩, by simp [Definition.body]⟩
  refine fairAfter_bind derives_portions fair_portions (fun p => ?_) fun p _ => ?_
  · exact ⟨⟨.specialty keyword name opening p.1 p.2 default, rfl⟩, by simp [Definition.body]⟩
  refine fairAfter_expect (by simp) (fun closing => ?_) fun _ => fairAfter_pure
  exact ⟨⟨.specialty keyword name opening p.1 p.2 closing, rfl⟩, by simp [Definition.body]⟩

theorem fair_definition {keyword : Token} : Fair (definition keyword) Definition.tokens := by
  have hlexeme (t : Leaf [.kwIngredient, .kwSpecialty]) :
      t.1.lexeme ∈ [Lexeme.kwIngredient] ∨ t.1.lexeme ∈ [Lexeme.kwSpecialty] := by
    simpa using t.2
  refine FairAfter.fair (idle_leaf.fairAfter_bind fun _ =>
    fairAfter_expect (by simp) (fun t => ?_) fun t => ?_)
  · rcases hlexeme t with hmem | hmem
    · exact ⟨.ingredient ⟨t.1, hmem⟩ default default default default none default,
        by simp [Definition.tokens, Definition.keyword]⟩
    · exact ⟨.specialty ⟨t.1, hmem⟩ default default default [] default,
        by simp [Definition.tokens, Definition.keyword]⟩
  split
  · next hkind =>
    have hmem : t.1.lexeme ∈ [Lexeme.kwIngredient] := by simp [hkind]
    refine fairAfter_bind (derives_ingredient ⟨t.1, hmem⟩) (fair_ingredient ⟨t.1, hmem⟩)
      (fun d => ?_) fun d _ => idle_attach.fairAfter_bind fun _ => fairAfter_pure
    exact ⟨d.1, by simp [Definition.tokens, d.2]⟩
  · next hkind =>
    have hmem := (hlexeme t).resolve_left (by simp [hkind])
    refine fairAfter_bind (derives_specialty ⟨t.1, hmem⟩) (fair_specialty ⟨t.1, hmem⟩)
      (fun d => ?_) fun d _ => idle_attach.fairAfter_bind fun _ => fairAfter_pure
    exact ⟨d.1, by simp [Definition.tokens, d.2]⟩

theorem fair_joined {item : Reader α} (hderives : Derives item tokens) (hne : ∀ d, tokens d ≠ [])
    (hfair : Fair item tokens) :
    Fair (collect item acceptAnd) fun p : δ × List (Leaf [.kwAnd] × δ) =>
      tokens p.1 ++ p.2.flatMap fun q => q.1.1 :: tokens q.2 := by
  refine fair_collect (fun word : Leaf [.kwAnd] => [word.1]) hderives hne hfair returns_acceptAnd
    (fun s => ?_) (fun d => ⟨(d, []), by simp⟩) fun d word p => ?_
  · by_cases ha : Ahead [.kwAnd] s.rest
    · obtain ⟨t, ht, hmem⟩ := ha
      obtain ⟨rest, hs⟩ := List.head?_eq_some_iff.mp ht
      exact ⟨true, s.advance t rest, Stateful.bind_of_ok (accept_of_mem hs hmem),
        fun _ => ⟨⟨t, hmem⟩, hs⟩⟩
    · exact ⟨false, s, Stateful.bind_of_ok (accept_of_not_ahead ha), fun h => by cases h⟩
  · exact ⟨(d, (word, p.1) :: p.2), by simp⟩

theorem fair_add (keyword : Leaf [.kwAdd]) :
    Fair (add keyword.1) fun c : { c : AddClause // c.keyword = keyword } => c.1.body := by
  refine FairAfter.fair (idle_leaf.fairAfter_bind fun clause => ?_)
  refine fairAfter_bind (derives_joined (derives_use.attaching clause) (by simp [Use.tokens]))
    (fair_joined (derives_use.attaching clause) (by simp [Use.tokens])
      (fair_use.bind_idle fun _ => idle_attach)) (fun p => ?_) fun _ _ => fairAfter_pure
  exact ⟨⟨⟨keyword, p.1, p.2⟩, rfl⟩, List.prefix_rfl⟩

theorem fair_specialties (keyword : Leaf [.kwOf]) :
    Fair (specialties keyword.1) fun c : { c : OfClause // c.keyword = keyword } => c.1.body := by
  refine FairAfter.fair (idle_leaf.fairAfter_bind fun clause => ?_)
  refine fairAfter_bind (derives_joined (derives_name.attaching clause) (by simp))
    (fair_joined (derives_name.attaching clause) (by simp)
      (fair_name.bind_idle fun _ => idle_attach)) (fun p => ?_) fun _ _ => fairAfter_pure
  exact ⟨⟨⟨keyword, p.1, p.2⟩, rfl⟩, List.prefix_rfl⟩

theorem fair_save (keyword : Leaf [.kwSave]) :
    Fair (save keyword.1) fun c : { c : SaveClause // c.keyword = keyword } => c.1.body := by
  refine FairAfter.fair (idle_leaf.fairAfter_bind fun _ =>
    fairAfter_expect (by simp) (fun as => ?_) fun as => ?_)
  · exact ⟨⟨⟨keyword, as, default⟩, rfl⟩, by simp [SaveClause.body]⟩
  refine fairAfter_bind derives_text fair_text (fun name => ?_) fun _ _ =>
    idle_attach.fairAfter_bind fun _ => fairAfter_pure
  exact ⟨⟨⟨keyword, as, name⟩, rfl⟩, by simp [SaveClause.body]⟩

theorem fair_toppings {pizza : NodeId} : Fair (toppings pizza) Toppings.tokens := by
  have hlexeme (t : Leaf [.kwAdd, .kwOf]) :
      t.1.lexeme ∈ [Lexeme.kwAdd] ∨ t.1.lexeme ∈ [Lexeme.kwOf] := by
    simpa using t.2
  refine FairAfter.fair (fairAfter_expect (by simp) (fun t => ?_) fun t => ?_)
  · rcases hlexeme t with hmem | hmem
    · exact ⟨.add ⟨⟨t.1, hmem⟩, default, []⟩, by simp [Toppings.tokens, AddClause.tokens]⟩
    · exact ⟨.names ⟨⟨t.1, hmem⟩, default, []⟩ none, by simp [Toppings.tokens, OfClause.tokens]⟩
  split
  · next hadd =>
    have hmem : t.1.lexeme ∈ [Lexeme.kwAdd] := by simp [hadd]
    refine fairAfter_bind (derives_add ⟨t.1, hmem⟩) (fair_add ⟨t.1, hmem⟩) (fun c => ?_)
      fun _ _ => idle_attach.fairAfter
    exact ⟨.add c.1, by simp [Toppings.tokens, AddClause.tokens, c.2]⟩
  · next hadd =>
    have hmem := (hlexeme t).resolve_left (by simp [hadd])
    refine fairAfter_bind (derives_specialties ⟨t.1, hmem⟩) (fair_specialties ⟨t.1, hmem⟩)
      (fun c => ?_) fun c _ => idle_attach.fairAfter_bind fun _ => ?_
    · exact ⟨.names c.1 none, by simp [Toppings.tokens, OfClause.tokens, c.2]⟩
    rw [← bind_pure (optional _ _)]
    refine fairAfter_optional (fun word => ?_) fairAfter_pure
    rw [bind_assoc]
    refine fairAfter_bind (derives_add word) (fair_add word) (fun a => ?_)
      fun _ _ => idle_attach.fairAfter_bind fun _ => fairAfter_pure
    exact ⟨.names c.1 (some a.1),
      by simp [Toppings.tokens, OfClause.tokens, AddClause.tokens, c.2, a.2]⟩

theorem fair_pizza {keyword : Token} :
    Fair (pizza keyword) fun p : Toppings × Option SaveClause =>
      p.1.tokens ++ p.2.toList.flatMap SaveClause.tokens := by
  refine FairAfter.fair (idle_leaf.fairAfter_bind fun _ =>
    fairAfter_bind derives_toppings fair_toppings (fun t => ⟨(t, none), by simp⟩) fun t _ => ?_)
  refine fairAfter_optional (fun word => ?_) fairAfter_pure
  rw [bind_assoc]
  refine fairAfter_bind (derives_save word) (fair_save word) (fun c => ?_)
    fun _ _ => idle_attach.fairAfter_bind fun _ => fairAfter_pure
  exact ⟨(t, some c.1), by simp [SaveClause.tokens, c.2]⟩

theorem fair_make (keyword : Leaf [.kwMake]) :
    Fair (make keyword.1) fun m : { m : Make // m.keyword = keyword } => m.1.body := by
  refine FairAfter.fair (idle_leaf.fairAfter_bind fun _ =>
    fairAfter_expect (by simp) (fun size => ?_) fun size => ?_)
  · exact ⟨⟨⟨keyword, size, default, default, none, default⟩, rfl⟩, by simp [Make.body]⟩
  refine idle_leaf.fairAfter_bind fun _ => idle_attach.fairAfter_bind fun _ =>
    fairAfter_expect (by simp) (fun pizza => ?_) fun pizza => ?_
  · exact ⟨⟨⟨keyword, size, pizza, default, none, default⟩, rfl⟩, by simp [Make.body]⟩
  refine fairAfter_bind derives_pizza fair_pizza (fun p => ?_) fun p _ => ?_
  · exact ⟨⟨⟨keyword, size, pizza, p.1, p.2, default⟩, rfl⟩, by simp [Make.body, Make.pizzaBody]⟩
  refine idle_attach.fairAfter_bind fun _ =>
    fairAfter_expect (by simp) (fun semicolon => ?_) fun _ => fairAfter_pure
  exact ⟨⟨⟨keyword, size, pizza, p.1, p.2, semicolon⟩, rfl⟩, by simp [Make.body, Make.pizzaBody]⟩

theorem fair_inclusion (keyword : Leaf [.kwInclude]) :
    Fair (inclusion keyword.1) fun p : Quotation × Leaf [.semicolon] =>
      p.1.tokens ++ [p.2.1] := by
  refine FairAfter.fair (idle_leaf.fairAfter_bind fun _ =>
    fairAfter_bind derives_text fair_text (fun path => ⟨(path, default), by simp⟩) fun path _ => ?_)
  refine idle_attach.fairAfter_bind fun _ =>
    fairAfter_expect (by simp) (fun semicolon => ?_) fun _ => fairAfter_pure
  exact ⟨(path, semicolon), by simp⟩

theorem opens_statement {t : Token} (ht : t.lexeme ∈ [Lexeme.kwInclude, .kwDefine, .kwMake]) :
    Opens Statement.tokens [t] := by
  have hlexeme : t.lexeme ∈ [Lexeme.kwInclude] ∨ t.lexeme ∈ [Lexeme.kwDefine] ∨
      t.lexeme ∈ [Lexeme.kwMake] := by
    simpa using ht
  rcases hlexeme with hmem | hmem | hmem
  · exact ⟨.inclusion ⟨t, hmem⟩ default default, by simp [Statement.tokens, Statement.keyword]⟩
  · exact ⟨.definition ⟨t, hmem⟩ default, by simp [Statement.tokens, Statement.keyword]⟩
  · exact ⟨.make ⟨⟨t, hmem⟩, default, default, default, none, default⟩,
      by simp [Statement.tokens, Statement.keyword]⟩

/-- Behind its first token a statement is read by the reader of its sort. -/
theorem statement_of_start {s : Cursor} {t : Token} {rest : List Token} (hs : s.rest = t :: rest)
    (ht : t.lexeme ∈ [Lexeme.kwInclude, .kwDefine, .kwMake]) :
    ∃ r : Reader NodeId, statement s = r (s.advance t rest) ∧
      FairAfter [t] r Statement.tokens := by
  rw [statement, Stateful.bind_of_ok (next_eq_ok_iff.mpr ⟨rest, hs, rfl⟩)]
  cases hlexeme : t.lexeme
  case kwInclude =>
    have hmem : t.lexeme ∈ [Lexeme.kwInclude] := by simp [hlexeme]
    refine ⟨inclusion t, rfl, (fair_inclusion ⟨t, hmem⟩).after fun p => ?_⟩
    exact ⟨.inclusion ⟨t, hmem⟩ p.1 p.2, List.prefix_rfl⟩
  case kwDefine =>
    have hmem : t.lexeme ∈ [Lexeme.kwDefine] := by simp [hlexeme]
    refine ⟨definition t, rfl, fair_definition.after fun d => ?_⟩
    exact ⟨.definition ⟨t, hmem⟩ d, List.prefix_rfl⟩
  case kwMake =>
    have hmem : t.lexeme ∈ [Lexeme.kwMake] := by simp [hlexeme]
    refine ⟨make t, rfl, (fair_make ⟨t, hmem⟩).after fun m => ⟨.make m.1, ?_⟩⟩
    rw [Statement.tokens, Statement.keyword, Statement.body, m.2]
    exact List.prefix_rfl
  all_goals simp [hlexeme] at ht

/-- The first token of a statement is taken even if it starts none, and then it is in error. -/
theorem fair_statement : Fair statement Statement.tokens := by
  intro s e s' h
  cases hs : s.rest with
  | nil =>
    have hfails : statement s = .error (.ended [.kwInclude, .kwDefine, .kwMake] s.last) s :=
      Stateful.bind_of_error (by simp [next, hs])
    obtain ⟨rfl, rfl⟩ := EStateM.Result.error.inj (hfails.symm.trans h)
    exact ⟨[], hs.symm, ⟨default, List.nil_prefix⟩, fun t => opens_statement t.2⟩
  | cons t rest =>
    by_cases ht : t.lexeme ∈ [Lexeme.kwInclude, .kwDefine, .kwMake]
    · obtain ⟨r, hr, hfair⟩ := statement_of_start hs ht
      obtain ⟨good, hrest, hgood⟩ := hfair _ e s' (hr.symm.trans h)
      exact ⟨t :: good, congrArg (t :: ·) hrest, hgood⟩
    · have hfails := statement_of_not_start hs ht
      obtain ⟨rfl, rfl⟩ := EStateM.Result.error.inj (hfails.symm.trans h)
      exact ⟨[], rfl, ⟨default, List.nil_prefix⟩, fun t => absurd t.2 List.not_mem_nil⟩

/-- **The reader of programs is fair.** -/
theorem fair_program : Fair program Program.tokens := by
  have hget : Idle (get : Reader Cursor) := fun s => ⟨s, s, rfl, rfl⟩
  refine FairAfter.fair (hget.fairAfter_bind fun s => idle_leaf.fairAfter_bind fun root => ?_)
  refine Fair.bind_idle (fair_collect (fun _ : Unit => []) (derives_statement.attaching root)
    (by simp [Statement.tokens]) (fair_statement.bind_idle fun _ => idle_attach) returns_seesAny
    (fun s => ⟨_, s, rfl, fun _ => ⟨(), rfl⟩⟩) ?_ ?_) fun _ => idle_pure
  · exact fun d => ⟨⟨d, []⟩, by simp [Program.tokens, Program.statements]⟩
  · exact fun d _ p => ⟨⟨d, p.first :: p.others⟩, by simp [Program.tokens, Program.statements]⟩

end Reader

/-! ### Programs -/

/-- **Lexemes are viable** if a program starts with them. -/
def Derivation.Viable (lexemes : List Lexeme) : Prop :=
  ∃ program, Derivable program ∧ lexemes <+: program

theorem Derivation.Opens.viable {ts : List Token} (h : Opens Program.tokens ts) :
    Viable (ts.map (·.lexeme)) := by
  obtain ⟨d, hd⟩ := h
  exact ⟨_, ⟨d, rfl⟩, hd.map _⟩

/-- **The first wrong token**: the tokens before it can become a program, and with it they
cannot. -/
structure Token.FirstWrong (tokens : List Token) (k : Nat) (found : Token) : Prop where
  found : tokens[k]? = some found
  viable : Viable ((tokens.take k).map (·.lexeme))
  wrong : ¬Viable ((tokens.take (k + 1)).map (·.lexeme))

variable {unit : Path} {tokens good us : List Token} {found : Token} {e : SyntaxError}

theorem Token.firstWrong_of_parse (htokens : tokens = good ++ found :: us)
    (hgood : Opens Program.tokens good)
    (hfails : ∀ vs f, parse unit (good ++ found :: vs) ≠ .ok f) :
    FirstWrong tokens good.length found := by
  subst htokens
  refine ⟨by simp, by simpa using hgood.viable, ?_⟩
  rintro ⟨program, ⟨d, rfl⟩, hprefix⟩
  -- what the program has behind these tokens can stand behind the ones in question as well
  have hlexemes : d.tokens.map (·.lexeme) =
      (good ++ found :: d.tokens.drop (good.length + 1)).map (·.lexeme) := by
    have htake := List.prefix_iff_eq_take.mp hprefix
    simp only [List.take_length_add_append, List.take_succ_cons, List.take_zero, List.length_map,
      List.length_append, List.length_cons, List.length_nil, ← List.map_take] at htake
    rw [← List.take_append_drop (good.length + 1) d.tokens, List.map_append, ← htake]
    simp
  obtain ⟨f, hf, -⟩ := parse_tokens unit d
  obtain ⟨f', hf'⟩ := exists_parse_congr hlexemes hf
  exact hfails _ f' hf'

theorem parse_eq_error_iff :
    parse unit tokens = .error e ↔ ∃ s, Reader.program (.ofTokens unit tokens) = .error e s := by
  rw [parse, Cursor.readProgram]
  cases Reader.program (.ofTokens unit tokens) <;> simp

/-- **What is known of the tokens when reading fails.** -/
theorem exists_good_of_parse (h : parse unit tokens = .error e) :
    ∃ (good : List Token) (s : Cursor), tokens = good ++ (e.mistaken ++ s.rest) ∧
      e.Fair Program.tokens good ∧ e.Arises (good ++ e.mistaken) s ∧
      s.last = (Position.start unit).past (good ++ e.mistaken) ∧
      (¬e.IsEnd → ∀ vs f, parse unit (good ++ e.mistaken ++ (e.seen ++ vs)) ≠ .ok f) := by
  obtain ⟨s, hs⟩ := parse_eq_error_iff.mp h
  obtain ⟨good, hgood, hfair⟩ := Reader.fair_program _ e s hs
  obtain ⟨taken, hpasses, harises, hsame⟩ := (Reader.oneAhead_program _).of_error e s hs
  obtain rfl : taken = good ++ e.mistaken := by
    have hrest := hpasses.rest.symm.trans hgood
    rw [← List.append_assoc] at hrest
    exact List.append_cancel_right hrest
  refine ⟨good, s, hgood, hfair, harises, hpasses.last, fun hend vs f hf => ?_⟩
  have hfails : parse unit (good ++ e.mistaken ++ (e.seen ++ vs)) = .error e :=
    parse_eq_error_iff.mpr (hsame hend vs)
  cases hfails.symm.trans hf

theorem Position.past_eq (p : Position) (ts : List Token) :
    p.past ts = (ts.getLast?.map (·.position)).getD p := by
  induction ts generalizing p with
  | nil => rfl
  | cons t ts ih =>
    change t.position.past ts = _
    rw [ih, List.getLast?_cons]
    cases ts.getLast? <;> rfl

theorem SyntaxError.Fair.viable {l : Lexeme} (h : e.Fair Program.tokens good)
    (hl : l ∈ e.wanted) : Viable (good.map (·.lexeme) ++ [l]) := by
  have hopens := h.2 ⟨⟨l, "", default⟩, hl⟩
  simpa using hopens.viable

/-- **Syntax errors are reported at the first chance.** Let some tokens be no program.

* If a token is refused because others are expected, or because it starts no statement, it is the
  first wrong one: the tokens before it can become a program, and with it they cannot.
* If the tokens run out, they can become a program but are none, and the error stands at the last of
  them, or at the start of the unit if there are none.
* Each lexeme that is named as expected could have come next. -/
theorem parse_error_earliest (unit : Path) (tokens : List Token) :
    (∀ lexemes found, parse unit tokens = .error (.expected lexemes found) →
      ∃ k, Token.FirstWrong tokens k found ∧
        ∀ l ∈ lexemes, Viable ((tokens.take k).map (·.lexeme) ++ [l])) ∧
    (∀ found, parse unit tokens = .error (.noStatement found) →
      ∃ k, Token.FirstWrong tokens k found) ∧
    ∀ lexemes position, parse unit tokens = .error (.ended lexemes position) →
      ¬Derivable (tokens.map (·.lexeme)) ∧
      (∃ program, Derivable program ∧ tokens.map (·.lexeme) <+: program ∧
        tokens.map (·.lexeme) ≠ program) ∧
      position = (tokens.getLast?.map (·.position)).getD (.start unit) ∧
      ∀ l ∈ lexemes, Viable (tokens.map (·.lexeme) ++ [l]) := by
  refine ⟨fun lexemes found h => ?expected, fun found h => ?noStatement,
    fun lexemes position h => ?ended⟩
  case expected =>
    obtain ⟨good, s, htokens, hfair, ⟨us, hus⟩, -, hfails⟩ := exists_good_of_parse h
    have hsplit : tokens = good ++ found :: us := by
      rw [htokens, hus]
      rfl
    have hrefused (vs : List Token) (f : Forest) : parse unit (good ++ found :: vs) ≠ .ok f := by
      simpa [SyntaxError.mistaken, SyntaxError.seen] using hfails id vs f
    refine ⟨good.length, Token.firstWrong_of_parse hsplit hfair.1 hrefused, fun l hl => ?_⟩
    simpa [hsplit] using hfair.viable hl
  case noStatement =>
    obtain ⟨good, s, htokens, hfair, -, -, hfails⟩ := exists_good_of_parse h
    have hrefused (vs : List Token) (f : Forest) : parse unit (good ++ found :: vs) ≠ .ok f := by
      simpa [SyntaxError.mistaken, SyntaxError.seen] using hfails id vs f
    exact ⟨good.length, Token.firstWrong_of_parse htokens hfair.1 hrefused⟩
  case ended =>
    obtain ⟨good, s, htokens, hfair, ⟨hrest, hposition⟩, hlast, -⟩ := exists_good_of_parse h
    obtain rfl : tokens = good := by simpa [SyntaxError.mistaken, hrest] using htokens
    have hnone : ¬Derivable (tokens.map (·.lexeme)) := by
      rintro ⟨d, hd⟩
      obtain ⟨f, hf, -⟩ := parse_tokens unit d
      obtain ⟨f', hf'⟩ := exists_parse_congr hd hf
      cases h.symm.trans hf'
    obtain ⟨program, hprogram, hprefix⟩ := hfair.1.viable
    refine ⟨hnone, ⟨program, hprogram, hprefix, fun heq => hnone (heq ▸ hprogram)⟩, ?_,
      fun l hl => hfair.viable hl⟩
    have hpast : s.last = (Position.start unit).past (tokens ++ []) := hlast
    rw [hposition, hpast, List.append_nil, Position.past_eq]

/-- An order in which the word for a pizza is missing. -/
def pizzaMissing : List Token :=
  [.kwMake, .kwBig, .kwOf, .literal, .semicolon].map fun lexeme => ⟨lexeme, "Of", default⟩

/-- The order is refused at its third token, where the missing word could still have come. Without
any token, one is missing, and the error stands at the start of the unit. -/
theorem parse_error_earliest_pizzaMissing :
    Viable [.kwMake, .kwBig, .kwPizza] ∧ ¬Viable [.kwMake, .kwBig, .kwOf] ∧
      (∃ lexemes, parse ⟨"main.pf"⟩ [] = .error (.ended lexemes ⟨1, 1, ⟨"main.pf"⟩⟩)) ∧
      Viable [.kwMake] ∧ ¬Viable [.semicolon] := by
  have herror {tokens : List Token} {e : SyntaxError}
      (h : (parse ⟨"main.pf"⟩ tokens).map (fun _ => ()) = .error e) :
      parse ⟨"main.pf"⟩ tokens = .error e := by
    cases hparse : parse ⟨"main.pf"⟩ tokens with
    | ok f =>
      rw [hparse] at h
      cases h
    | error e' =>
      rw [hparse] at h
      exact congrArg _ (Except.error.inj h)
  have hmissing : parse ⟨"main.pf"⟩ pizzaMissing =
      .error (.expected [.kwPizza] ⟨.kwOf, "Of", default⟩) := herror (by decide +kernel)
  have hstray : parse ⟨"main.pf"⟩ (pizzaMissing.drop 4) =
      .error (.noStatement ⟨.semicolon, "Of", default⟩) := herror (by decide +kernel)
  have hempty : parse ⟨"main.pf"⟩ [] =
      .error (.ended [.kwInclude, .kwDefine, .kwMake] ⟨1, 1, ⟨"main.pf"⟩⟩) :=
    herror (by decide +kernel)
  obtain ⟨k, hwrong, hnext⟩ := (parse_error_earliest ⟨"main.pf"⟩ pizzaMissing).1 _ _ hmissing
  obtain ⟨j, hfirst⟩ := (parse_error_earliest ⟨"main.pf"⟩ (pizzaMissing.drop 4)).2.1 _ hstray
  obtain ⟨-, -, -, hstart⟩ := (parse_error_earliest ⟨"main.pf"⟩ []).2.2 _ _ hempty
  have hthird : ∀ k < 5, pizzaMissing[k]? = some ⟨.kwOf, "Of", default⟩ → k = 2 := by decide
  obtain rfl := hthird k (List.getElem?_eq_some_iff.mp hwrong.found).1 hwrong.found
  obtain rfl : j = 0 := Nat.lt_one_iff.mp (List.getElem?_eq_some_iff.mp hfirst.found).1
  exact ⟨hnext _ List.mem_cons_self, hwrong.wrong, ⟨_, hempty⟩, hstart _ (by decide),
    hfirst.wrong⟩

end PizzaLang
