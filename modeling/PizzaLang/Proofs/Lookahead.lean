import PizzaLang.Proofs.Recognition

/-!
# Readers look one token ahead

A reader takes tokens from the front and decides what to do by the token that comes next. It never
looks further: what it does with the tokens that it takes, and with the one in front of which it
stops, does not depend on what stands behind them. And when it fails, its error tells exactly where
this was.

* `PizzaLang.Reader.OneAheadAt`: what comes out of a reader stays the same when the tokens behind
  those that have been seen are replaced;
* `PizzaLang.SyntaxError.Arises`: the place that an error is about;
* `PizzaLang.Reader.oneAhead_program`: all this holds of the reader of programs.
-/

namespace PizzaLang

/-- Where the last of some tokens stands, or the position itself if there is none. -/
def Position.past (p : Position) (tokens : List Token) : Position :=
  tokens.foldl (fun _ t => t.position) p

/-- **A cursor passes some tokens**: they are gone from the front, and it is known where the last of
them stood. -/
structure Cursor.Passes (s : Cursor) (taken : List Token) (s' : Cursor) : Prop where
  rest : s.rest = taken ++ s'.rest
  last : s'.last = s.last.past taken

theorem Cursor.Passes.trans {s t u : Cursor} {taken taken' : List Token} (h : s.Passes taken t)
    (h' : t.Passes taken' u) : s.Passes (taken ++ taken') u := by
  refine ⟨by rw [h.rest, h'.rest, List.append_assoc], ?_⟩
  rw [h'.last, h.last, Position.past, Position.past, Position.past, List.foldl_append]

namespace SyntaxError

/-- The token that has been seen and not taken. -/
def seen : SyntaxError → List Token
  | expected _ found => [found]
  | _ => []

/-- The tokens have run out. -/
def IsEnd : SyntaxError → Prop
  | ended _ _ => True
  | _ => False

/-- **Where an error arises**, after some tokens have been taken. A token that is not among the
expected ones is in front, one that starts no statement has just been taken, and if a token is
missing none is left. -/
def Arises (taken : List Token) (s : Cursor) : SyntaxError → Prop
  | expected _ found => ∃ us, s.rest = found :: us
  | ended _ position => s.rest = [] ∧ position = s.last
  | noStatement found => ∃ before, taken = before ++ [found]

variable {e : SyntaxError} {taken : List Token} {s : Cursor}

theorem Arises.append_left (h : e.Arises taken s) (before : List Token) :
    e.Arises (before ++ taken) s := by
  cases e with
  | expected _ _ => exact h
  | ended _ _ => exact h
  | noStatement found =>
    obtain ⟨middle, rfl⟩ := h
    exact ⟨before ++ middle, (List.append_assoc _ _ _).symm⟩

/-- Unless the tokens have run out, the error is about a token. -/
theorem Arises.exists_front (h : e.Arises taken s) (hend : ¬e.IsEnd) :
    taken ++ e.seen ≠ [] ∧ ∃ us, s.rest = e.seen ++ us := by
  cases e with
  | expected _ found =>
    obtain ⟨us, hus⟩ := h
    exact ⟨by simp [seen], us, hus⟩
  | ended _ _ => exact absurd trivial hend
  | noStatement found =>
    obtain ⟨before, rfl⟩ := h
    exact ⟨by simp, s.rest, rfl⟩

end SyntaxError

namespace Reader

open PizzaLang.Derivation

variable {α β : Type} {s : Cursor}

/-- **A reader looks one token ahead** from where a cursor stands. If it succeeds and some tokens
are left, then it does the same with others behind the first of them. If it fails, then at the place
that the error is about, and it fails in the same way whatever stands behind that. -/
structure OneAheadAt (r : Reader α) (s : Cursor) : Prop where
  of_ok : ∀ a s', r s = .ok a s' → ∃ taken, s.Passes taken s' ∧
    ∀ front us, front ≠ [] → s'.rest = front ++ us → ∀ vs,
      r { s with rest := taken ++ (front ++ vs) } = .ok a { s' with rest := front ++ vs }
  of_error : ∀ e s', r s = .error e s' → ∃ taken, s.Passes taken s' ∧ e.Arises taken s' ∧
    (¬e.IsEnd → ∀ vs, ∃ s'', r { s with rest := taken ++ (e.seen ++ vs) } = .error e s'')

/-- **A reader looks one token ahead**, wherever the cursor stands. -/
def OneAhead (r : Reader α) : Prop := ∀ s, OneAheadAt r s

/-! ### Sequences -/

section Sequences

variable {x : Reader α} {f : α → Reader β}

theorem OneAheadAt.bind (hx : OneAheadAt x s) (hf : ∀ a t, x s = .ok a t → OneAheadAt (f a) t) :
    OneAheadAt (x >>= f) s := by
  constructor
  · intro b s' h
    obtain ⟨a, t, ha, hb⟩ := Stateful.bind_eq_ok_iff.mp h
    obtain ⟨taken, hpasses, hahead⟩ := hx.of_ok a t ha
    obtain ⟨taken', hpasses', hahead'⟩ := (hf a t ha).of_ok b s' hb
    refine ⟨taken ++ taken', hpasses.trans hpasses', fun front us hne hrest vs => ?_⟩
    -- the second reader has seen `front`, and the first one what the second took
    have hfirst := hahead (taken' ++ front) us (List.append_ne_nil_of_right_ne_nil _ hne)
      (by rw [hpasses'.rest, hrest, List.append_assoc]) vs
    rw [List.append_assoc] at hfirst
    rw [List.append_assoc, Stateful.bind_of_ok hfirst]
    exact hahead' front us hne hrest vs
  · intro e s' h
    rcases Stateful.bind_eq_error_iff.mp h with h | ⟨a, t, ha, he⟩
    · obtain ⟨taken, hpasses, harises, hsame⟩ := hx.of_error e s' h
      refine ⟨taken, hpasses, harises, fun hend vs => ?_⟩
      obtain ⟨s'', hs''⟩ := hsame hend vs
      exact ⟨s'', Stateful.bind_of_error hs''⟩
    · obtain ⟨taken, hpasses, hahead⟩ := hx.of_ok a t ha
      obtain ⟨taken', hpasses', harises, hsame⟩ := (hf a t ha).of_error e s' he
      refine ⟨taken ++ taken', hpasses.trans hpasses', harises.append_left taken, ?_⟩
      intro hend vs
      obtain ⟨hne, us, hus⟩ := harises.exists_front hend
      have hfirst := hahead (taken' ++ e.seen) us hne
        (by rw [hpasses'.rest, hus, List.append_assoc]) vs
      rw [List.append_assoc] at hfirst
      rw [List.append_assoc, Stateful.bind_of_ok hfirst]
      exact hsame hend vs

theorem OneAheadAt.congr {y : Reader α}
    (h : ∀ ts, x { s with rest := ts } = y { s with rest := ts }) (hy : OneAheadAt y s) :
    OneAheadAt x s := by
  have hs : x s = y s := h s.rest
  constructor
  · intro a s' ha
    obtain ⟨taken, hpasses, hahead⟩ := hy.of_ok a s' (hs ▸ ha)
    exact ⟨taken, hpasses, fun front us hne hrest vs => (h _).trans (hahead front us hne hrest vs)⟩
  · intro e s' he
    obtain ⟨taken, hpasses, harises, hsame⟩ := hy.of_error e s' (hs ▸ he)
    exact ⟨taken, hpasses, harises, fun hend vs => (h _).symm ▸ hsame hend vs⟩

theorem OneAhead.bind (hx : OneAhead x) (hf : ∀ a, OneAhead (f a)) : OneAhead (x >>= f) :=
  fun s => (hx s).bind fun a t _ => hf a t

end Sequences

/-! ### Steps -/

/-- A reader that takes no notice of the tokens looks at none. -/
theorem oneAheadAt_of_idle {r : Reader α} (a : α) (s' : Cursor) (hlast : s'.last = s.last)
    (h : ∀ ts, r { s with rest := ts } = .ok a { s' with rest := ts }) : OneAheadAt r s := by
  have hs : r s = .ok a { s' with rest := s.rest } := h s.rest
  constructor
  · intro b t hb
    obtain ⟨rfl, rfl⟩ := EStateM.Result.ok.inj (hs.symm.trans hb)
    exact ⟨[], ⟨rfl, hlast⟩, fun front us _ _ vs => h (front ++ vs)⟩
  · intro e t he
    cases hs.symm.trans he

theorem oneAhead_pure {a : α} : OneAhead (pure a : Reader α) :=
  fun s => oneAheadAt_of_idle a s rfl fun _ => rfl

theorem oneAhead_leaf {kind : NodeKind} {value : String} {position : Position} :
    OneAhead (leaf kind value position) :=
  fun s => oneAheadAt_of_idle s.forest.size
    { s with forest := (s.forest.alloc ⟨kind, value, position⟩).2 } rfl fun _ => rfl

theorem oneAhead_attach {parent child : NodeId} : OneAhead (attach parent child) :=
  fun s => oneAheadAt_of_idle () { s with forest := s.forest.attach parent child } rfl fun _ => rfl

section Tokens

variable {lexemes : List Lexeme}

theorem oneAhead_expect : OneAhead (expect lexemes) := by
  intro s
  constructor
  · intro t s' h
    obtain ⟨rest, hs, ht, rfl⟩ := expect_eq_ok_iff.mp h
    exact ⟨[t], ⟨hs, rfl⟩, fun front us _ _ vs => expect_of_mem rfl ht⟩
  · intro e s' h
    cases hs : s.rest with
    | nil =>
      simp only [expect, hs] at h
      obtain ⟨rfl, rfl⟩ := EStateM.Result.error.inj h
      exact ⟨[], ⟨rfl, rfl⟩, ⟨hs, rfl⟩, fun hend => absurd trivial hend⟩
    | cons t rest =>
      simp only [expect, hs] at h
      split at h
      · cases h
      · next hany =>
        obtain ⟨rfl, rfl⟩ := EStateM.Result.error.inj h
        refine ⟨[], ⟨rfl, rfl⟩, ⟨rest, hs⟩, fun _ vs => ⟨{ s with rest := t :: vs }, ?_⟩⟩
        simp [expect, SyntaxError.seen, hany]

theorem oneAhead_next : OneAhead (next lexemes) := by
  intro s
  constructor
  · intro t s' h
    obtain ⟨rest, hs, rfl⟩ := next_eq_ok_iff.mp h
    exact ⟨[t], ⟨hs, rfl⟩, fun front us _ _ vs => rfl⟩
  · intro e s' h
    cases hs : s.rest with
    | nil =>
      simp only [next, hs] at h
      obtain ⟨rfl, rfl⟩ := EStateM.Result.error.inj h
      exact ⟨[], ⟨rfl, rfl⟩, ⟨hs, rfl⟩, fun hend => absurd trivial hend⟩
    | cons t rest =>
      simp only [next, hs] at h
      cases h

theorem oneAhead_accept : OneAhead (accept lexemes) := by
  intro s
  constructor
  · intro o s' h
    rcases accept_eq_ok_iff.mp h with ⟨t, rest, rfl, hs, ht, rfl⟩ | ⟨rfl, hahead, rfl⟩
    · exact ⟨[t], ⟨hs, rfl⟩, fun front us _ _ vs => accept_of_mem rfl ht⟩
    · refine ⟨[], ⟨rfl, rfl⟩, fun front us hne hrest vs => accept_of_not_ahead ?_⟩
      obtain ⟨t, ts, rfl⟩ := List.exists_cons_of_ne_nil hne
      rw [hrest] at hahead
      exact mt ahead_cons.mp (mt ahead_cons.mpr hahead)
  · intro e s' h
    simp only [accept] at h
    split at h
    · split at h <;> cases h
    · cases h

theorem oneAhead_sees : OneAhead (sees lexemes) := by
  intro s
  constructor
  · intro b s' h
    obtain ⟨hb, rfl⟩ := sees_eq_ok_iff.mp h
    refine ⟨[], ⟨rfl, rfl⟩, fun front us hne hrest vs => sees_eq_ok_iff.mpr ⟨?_, rfl⟩⟩
    obtain ⟨t, ts, rfl⟩ := List.exists_cons_of_ne_nil hne
    rw [hb, hrest]
    exact ahead_cons.trans ahead_cons.symm
  · intro e s' h
    cases h

theorem oneAhead_seesAny : OneAhead seesAny := by
  intro s
  constructor
  · intro b s' h
    obtain ⟨hb, rfl⟩ := seesAny_eq_ok_iff.mp h
    refine ⟨[], ⟨rfl, rfl⟩, fun front us hne hrest vs => seesAny_eq_ok_iff.mpr ⟨?_, rfl⟩⟩
    rw [hb, hrest]
    simp [hne]
  · intro e s' h
    cases h

theorem oneAhead_acceptAnd : OneAhead acceptAnd :=
  oneAhead_accept.bind fun _ => oneAhead_pure

theorem oneAhead_optional {act : Token → Reader Unit} (h : ∀ t, OneAhead (act t)) :
    OneAhead (optional lexemes act) := by
  refine oneAhead_accept.bind fun o => ?_
  cases o with
  | none => exact oneAhead_pure
  | some t => exact h t

theorem OneAhead.attaching {r : Reader NodeId} (h : OneAhead r) (p : NodeId) :
    OneAhead (do attach p (← r)) :=
  h.bind fun _ => oneAhead_attach

end Tokens

/-! ### Loops -/

theorem oneAhead_collect {item : Reader α} {more : Reader Bool} (hitem : OneAhead item)
    (hmore : OneAhead more) (hconsumes : Consumes item) (hreturns : Returns more) :
    OneAhead (collect item more) := by
  intro s
  -- every round leaves fewer tokens
  induction hn : s.rest.length using Nat.strongRecOn generalizing s with
  | ind n ih =>
    subst hn
    rw [collect_eq hconsumes hreturns]
    refine (hitem s).bind fun first t hfirst => (hmore t).bind fun b u hb => ?_
    have hlt := hconsumes s first t hfirst
    have hle := hreturns t b u hb
    cases b with
    | false => exact oneAhead_pure u
    | true => exact (ih u.rest.length (by omega) u rfl).bind fun _ v _ => oneAhead_pure v

theorem oneAhead_chain {operand : Reader NodeId} {operators : List Lexeme}
    (hoperand : OneAhead operand) (hconsumes : Consumes operand) :
    OneAhead (chain operand operators) := by
  intro s
  induction hn : s.rest.length using Nat.strongRecOn generalizing s with
  | ind n ih =>
    subst hn
    rw [chain_eq hconsumes]
    refine (hoperand s).bind fun left t hleft => (oneAhead_accept t).bind fun o u ho => ?_
    have hlt := hconsumes s left t hleft
    have hle := returns_accept t o u ho
    cases o with
    | none => exact oneAhead_pure u
    | some operator =>
      refine (ih u.rest.length (by omega) u rfl).bind fun right v _ => ?_
      exact (oneAhead_leaf.bind fun _ => oneAhead_attach.bind fun _ =>
        oneAhead_attach.bind fun _ => oneAhead_pure) v

/-! ### The readers of the grammar -/

theorem oneAhead_name {kind : NodeKind} : OneAhead (name kind) :=
  oneAhead_expect.bind fun _ => oneAhead_leaf

theorem oneAhead_quoted : OneAhead quoted :=
  oneAhead_expect.bind fun _ => oneAhead_expect.bind fun _ => oneAhead_expect.bind fun _ =>
    oneAhead_pure

theorem oneAhead_text : OneAhead text :=
  (oneAhead_collect oneAhead_quoted oneAhead_sees consumes_quoted returns_sees).bind fun _ =>
    oneAhead_leaf

theorem oneAhead_number : OneAhead number :=
  oneAhead_expect.bind fun _ => oneAhead_leaf

theorem oneAhead_expression : OneAhead expression :=
  oneAhead_chain
    (oneAhead_chain oneAhead_number (derives_number.consumes fun _ => List.cons_ne_nil _ _))
    (derives_term.consumes Term.tokens_ne_nil)

theorem oneAhead_use : OneAhead use :=
  oneAhead_name.bind fun _ => oneAhead_expect.bind fun _ => oneAhead_expression.bind fun _ =>
    oneAhead_attach.bind fun _ => oneAhead_expect.bind fun _ => oneAhead_pure

theorem oneAhead_resizing {keyword : Token} : OneAhead (resizing keyword) :=
  oneAhead_leaf.bind fun _ => oneAhead_number.bind fun _ => oneAhead_attach.bind fun _ =>
    oneAhead_pure

theorem oneAhead_ingredient {keyword : Token} : OneAhead (ingredient keyword) :=
  oneAhead_leaf.bind fun node => oneAhead_name.bind fun _ => oneAhead_attach.bind fun _ =>
    oneAhead_expect.bind fun _ => oneAhead_text.bind fun _ => oneAhead_attach.bind fun _ =>
      oneAhead_expect.bind fun _ =>
        (oneAhead_optional fun _ => oneAhead_resizing.attaching node).bind fun _ =>
          oneAhead_expect.bind fun _ => oneAhead_pure

theorem returns_not_sees {lexemes : List Lexeme} : Returns (do return !(← sees lexemes)) := by
  intro s b s' h
  obtain ⟨_, t, hsees, hpure⟩ := Stateful.bind_eq_ok_iff.mp h
  obtain ⟨-, rfl⟩ := Stateful.pure_eq_ok_iff.mp hpure
  exact returns_sees s _ t hsees

theorem oneAhead_specialty {keyword : Token} : OneAhead (specialty keyword) := by
  refine oneAhead_leaf.bind fun _ => oneAhead_name.bind fun name => oneAhead_attach.bind fun _ =>
    oneAhead_expect.bind fun _ => ?_
  have hportion : OneAhead (portion name) :=
    oneAhead_use.bind fun _ => oneAhead_attach.bind fun _ => oneAhead_expect.bind fun _ =>
      oneAhead_pure
  have hmore : OneAhead (do return !(← sees [.closeBrace])) :=
    oneAhead_sees.bind fun _ => oneAhead_pure
  exact (oneAhead_collect hportion hmore (derives_portion.consumes (by simp [portionTokens]))
    returns_not_sees).bind fun _ => oneAhead_expect.bind fun _ => oneAhead_pure

theorem oneAhead_definition {keyword : Token} : OneAhead (definition keyword) := by
  refine oneAhead_leaf.bind fun define => oneAhead_expect.bind fun kind => ?_
  split
  · exact oneAhead_ingredient.bind fun _ => oneAhead_attach.bind fun _ => oneAhead_pure
  · exact oneAhead_specialty.bind fun _ => oneAhead_attach.bind fun _ => oneAhead_pure

theorem returns_acceptAnd : Returns acceptAnd := by
  intro s b s' h
  obtain ⟨o, t, haccept, hpure⟩ := Stateful.bind_eq_ok_iff.mp h
  obtain ⟨-, rfl⟩ := Stateful.pure_eq_ok_iff.mp hpure
  exact returns_accept s o t haccept

theorem oneAhead_add {keyword : Token} : OneAhead (add keyword) :=
  oneAhead_leaf.bind fun clause =>
    (oneAhead_collect (oneAhead_use.attaching clause) oneAhead_acceptAnd
      ((derives_use.attaching clause).consumes (by simp [Use.tokens])) returns_acceptAnd).bind
        fun _ => oneAhead_pure

theorem oneAhead_specialties {keyword : Token} : OneAhead (specialties keyword) :=
  oneAhead_leaf.bind fun clause =>
    (oneAhead_collect (oneAhead_name.attaching clause) oneAhead_acceptAnd
      ((derives_name.attaching clause).consumes (by simp)) returns_acceptAnd).bind
        fun _ => oneAhead_pure

theorem oneAhead_save {keyword : Token} : OneAhead (save keyword) :=
  oneAhead_leaf.bind fun _ => oneAhead_expect.bind fun _ => oneAhead_text.bind fun _ =>
    oneAhead_attach.bind fun _ => oneAhead_pure

theorem oneAhead_toppings {pizza : NodeId} : OneAhead (toppings pizza) := by
  refine oneAhead_expect.bind fun first => ?_
  split
  · exact oneAhead_add.attaching pizza
  · exact oneAhead_specialties.bind fun _ => oneAhead_attach.bind fun _ =>
      oneAhead_optional fun _ => oneAhead_add.attaching pizza

theorem oneAhead_pizza {keyword : Token} : OneAhead (pizza keyword) :=
  oneAhead_leaf.bind fun node => oneAhead_toppings.bind fun _ =>
    (oneAhead_optional fun _ => oneAhead_save.attaching node).bind fun _ => oneAhead_pure

theorem oneAhead_make {keyword : Token} : OneAhead (make keyword) :=
  oneAhead_leaf.bind fun _ => oneAhead_expect.bind fun _ => oneAhead_leaf.bind fun _ =>
    oneAhead_attach.bind fun _ => oneAhead_expect.bind fun _ => oneAhead_pizza.bind fun _ =>
      oneAhead_attach.bind fun _ => oneAhead_expect.bind fun _ => oneAhead_pure

theorem oneAhead_inclusion {keyword : Token} : OneAhead (inclusion keyword) :=
  oneAhead_leaf.bind fun _ => oneAhead_text.bind fun _ => oneAhead_attach.bind fun _ =>
    oneAhead_expect.bind fun _ => oneAhead_pure

theorem statement_of_not_start {t : Token} {rest : List Token} (hs : s.rest = t :: rest)
    (ht : t.lexeme ∉ [.kwInclude, .kwDefine, .kwMake]) :
    statement s = .error (.noStatement t) (s.advance t rest) := by
  rw [statement, Stateful.bind_of_ok (next_eq_ok_iff.mpr ⟨rest, hs, rfl⟩)]
  cases hlexeme : t.lexeme
  case kwInclude | kwDefine | kwMake => simp [hlexeme] at ht
  all_goals rfl

/-- A token that starts no statement is taken, and nothing behind it is looked at. -/
theorem oneAhead_statement : OneAhead statement := by
  intro s
  by_cases hstart : ∃ t rest, s.rest = t :: rest ∧ t.lexeme ∉ [.kwInclude, .kwDefine, .kwMake]
  · obtain ⟨t, rest, hs, ht⟩ := hstart
    have hfails := statement_of_not_start hs ht
    constructor
    · intro a s' h
      cases hfails.symm.trans h
    · intro e s' h
      obtain ⟨rfl, rfl⟩ := EStateM.Result.error.inj (hfails.symm.trans h)
      exact ⟨[t], ⟨hs, rfl⟩, ⟨[], rfl⟩, fun _ vs => ⟨_, statement_of_not_start rfl ht⟩⟩
  · refine (oneAhead_next s).bind fun t s' h => ?_
    obtain ⟨rest, hs, rfl⟩ := next_eq_ok_iff.mp h
    split
    · exact oneAhead_inclusion _
    · exact oneAhead_definition _
    · exact oneAhead_make _
    · next h₁ h₂ h₃ => exact absurd ⟨t, rest, hs, by simpa using ⟨h₁, h₂, h₃⟩⟩ hstart

theorem returns_seesAny : Returns seesAny := by
  intro s b s' h
  obtain ⟨-, rfl⟩ := seesAny_eq_ok_iff.mp h
  exact Nat.le_refl _

/-- **The reader of programs looks one token ahead.** -/
theorem oneAhead_program : OneAhead program := by
  intro s
  -- the cursor is asked for the unit only, which is the same whatever tokens are left
  have hunit (ts : List Token) : program { s with rest := ts } =
      (do
        let root ← leaf .program s.unit.text (.start s.unit)
        let _ ← collect (do attach root (← statement)) seesAny
        return root : Reader NodeId) { s with rest := ts } := rfl
  refine OneAheadAt.congr hunit ?_
  refine (oneAhead_leaf s).bind fun root t _ => ?_
  have hconsumes := (derives_statement.attaching root).consumes (by simp [Statement.tokens])
  exact ((oneAhead_collect (oneAhead_statement.attaching root) oneAhead_seesAny hconsumes
    returns_seesAny).bind fun _ => oneAhead_pure) t

end Reader

end PizzaLang
