import PizzaLang.Grammar.Program
import PizzaLang.Proofs.Outcome

/-!
# What readers of tokens do

The steps that readers are made of, each with the conditions under which it succeeds: a reader
looks at the token in front and takes it, or leaves everything as it is. Whether a token may
go on a phrase that could also end before it is `PizzaLang.Ahead`.

The two loops count their rounds on the tokens that are left when they start.
`PizzaLang.Reader.collect_eq` and `PizzaLang.Reader.chain_eq` say that this count does not
matter: since every round takes a token, the loops are what they would be without it.
-/

namespace PizzaLang

/-- The token in front has one of these lexemes. -/
def Ahead (lexemes : List Lexeme) (tokens : List Token) : Prop :=
  ∃ t ∈ tokens.head?, t.lexeme ∈ lexemes

theorem ahead_cons {lexemes : List Lexeme} {t : Token} {tokens : List Token} :
    Ahead lexemes (t :: tokens) ↔ t.lexeme ∈ lexemes := by
  simp [Ahead]

theorem not_ahead_nil {lexemes : List Lexeme} : ¬Ahead lexemes [] := by
  simp [Ahead]

theorem not_ahead_none {tokens : List Token} : ¬Ahead [] tokens := by
  simp [Ahead]

theorem Ahead.mono {lexemes lexemes' : List Lexeme} {tokens : List Token}
    (h : Ahead lexemes tokens) (hsub : ∀ l ∈ lexemes, l ∈ lexemes') : Ahead lexemes' tokens := by
  obtain ⟨t, ht, hmem⟩ := h
  exact ⟨t, ht, hsub _ hmem⟩

theorem Ahead.not_of_disjoint {lexemes lexemes' : List Lexeme} {tokens : List Token}
    (h : Ahead lexemes tokens) (hdis : ∀ l ∈ lexemes, l ∉ lexemes') : ¬Ahead lexemes' tokens := by
  rintro ⟨u, hu, hmem'⟩
  obtain ⟨t, ht, hmem⟩ := h
  obtain rfl : t = u := Option.some.inj (ht.symm.trans hu)
  exact hdis _ hmem hmem'

theorem Token.isAny_iff {t : Token} {lexemes : List Lexeme} :
    t.isAny lexemes = true ↔ t.lexeme ∈ lexemes := by
  simp [Token.isAny]

namespace Reader

variable {α : Type} {s s' : Cursor} {lexemes : List Lexeme} {t : Token}

/-! ### Single steps -/

theorem expect_of_mem {rest : List Token} (hs : s.rest = t :: rest) (ht : t.lexeme ∈ lexemes) :
    expect lexemes s = .ok t (s.advance t rest) := by
  simp [expect, hs, Token.isAny_iff.mpr ht]

theorem expect_eq_ok_iff :
    expect lexemes s = .ok t s' ↔
      ∃ rest, s.rest = t :: rest ∧ t.lexeme ∈ lexemes ∧ s' = s.advance t rest := by
  constructor
  · intro h
    rw [expect] at h
    split at h
    · next u rest hs =>
      split at h
      · next hu =>
        obtain ⟨rfl, rfl⟩ := EStateM.Result.ok.inj h
        exact ⟨rest, hs, Token.isAny_iff.mp hu, rfl⟩
      · cases h
    · cases h
  · rintro ⟨rest, hs, ht, rfl⟩
    exact expect_of_mem hs ht

theorem accept_of_mem {rest : List Token} (hs : s.rest = t :: rest) (ht : t.lexeme ∈ lexemes) :
    accept lexemes s = .ok (some t) (s.advance t rest) := by
  simp [accept, hs, Token.isAny_iff.mpr ht]

theorem accept_of_not_ahead (h : ¬Ahead lexemes s.rest) : accept lexemes s = .ok none s := by
  rw [accept]
  split
  · next u rest hs =>
    rw [hs, ahead_cons, ← Token.isAny_iff] at h
    rw [if_neg h]
  · rfl

/-- A token is accepted if it is in front, and otherwise nothing happens. -/
theorem accept_eq_ok_iff {o : Option Token} :
    accept lexemes s = .ok o s' ↔
      (∃ t rest, o = some t ∧ s.rest = t :: rest ∧ t.lexeme ∈ lexemes ∧ s' = s.advance t rest) ∨
        (o = none ∧ ¬Ahead lexemes s.rest ∧ s' = s) := by
  constructor
  · intro h
    by_cases ha : Ahead lexemes s.rest
    · obtain ⟨t, ht, hmem⟩ := ha
      obtain ⟨rest, hs⟩ := List.head?_eq_some_iff.mp ht
      rw [accept_of_mem hs hmem] at h
      obtain ⟨rfl, rfl⟩ := EStateM.Result.ok.inj h
      exact Or.inl ⟨t, rest, rfl, hs, hmem, rfl⟩
    · rw [accept_of_not_ahead ha] at h
      obtain ⟨rfl, rfl⟩ := EStateM.Result.ok.inj h
      exact Or.inr ⟨rfl, ha, rfl⟩
  · rintro (⟨t, rest, rfl, hs, ht, rfl⟩ | ⟨rfl, ha, rfl⟩)
    · exact accept_of_mem hs ht
    · exact accept_of_not_ahead ha

open Classical in
theorem sees_apply : sees lexemes s = .ok (decide (Ahead lexemes s.rest)) s := by
  rw [sees]
  congr 1
  rw [Bool.eq_iff_iff, decide_eq_true_iff]
  simp [Ahead, Option.any_eq_true, Token.isAny_iff]

theorem sees_eq_ok_iff {b : Bool} :
    sees lexemes s = .ok b s' ↔ (b = true ↔ Ahead lexemes s.rest) ∧ s = s' := by
  classical
  rw [sees_apply, EStateM.Result.ok.injEq, Bool.eq_iff_iff, decide_eq_true_iff]
  exact and_congr_left fun _ => Iff.comm

theorem seesAny_eq_ok_iff {b : Bool} :
    seesAny s = .ok b s' ↔ (b = true ↔ s.rest ≠ []) ∧ s = s' := by
  rw [seesAny, EStateM.Result.ok.injEq, Bool.eq_iff_iff]
  simp only [Bool.not_eq_true', List.isEmpty_eq_false_iff]
  exact and_congr_left fun _ => Iff.comm

theorem next_eq_ok_iff :
    next lexemes s = .ok t s' ↔ ∃ rest, s.rest = t :: rest ∧ s' = s.advance t rest := by
  rw [next]
  cases s.rest with
  | nil => simp
  | cons u rest =>
    simp only [EStateM.Result.ok.injEq, List.cons.injEq]
    constructor
    · rintro ⟨rfl, rfl⟩
      exact ⟨rest, ⟨rfl, rfl⟩, rfl⟩
    · rintro ⟨_, ⟨rfl, rfl⟩, rfl⟩
      exact ⟨rfl, rfl⟩

theorem leaf_eq_ok_iff {kind : NodeKind} {value : String} {position : Position} {id : NodeId} :
    leaf kind value position s = .ok id s' ↔
      id = s.forest.size ∧
        s' = { s with forest := (s.forest.alloc ⟨kind, value, position⟩).2 } := by
  simp only [leaf, Forest.alloc, EStateM.Result.ok.injEq]
  exact and_congr eq_comm eq_comm

theorem attach_eq_ok_iff {parent child : NodeId} {u : Unit} :
    attach parent child s = .ok u s' ↔
      s' = { s with forest := s.forest.attach parent child } := by
  simp only [attach, EStateM.Result.ok.injEq, true_and]
  exact eq_comm

/-! ### Loops -/

/-- **A reader takes at least a token** whenever it succeeds. -/
def Consumes (r : Reader α) : Prop :=
  ∀ s a s', r s = .ok a s' → s'.rest.length < s.rest.length

theorem Consumes.rest_ne_nil {r : Reader α} (hr : Consumes r) {a : α} (h : r s = .ok a s') :
    s.rest ≠ [] := by
  intro hs
  have := hr s a s' h
  rw [hs] at this
  exact Nat.not_lt_zero _ this

/-- Where no token is left, nothing comes after a reader that has to take one. -/
theorem Consumes.bind_of_nil {r : Reader α} (hr : Consumes r) (hs : s.rest = [])
    (k : α → Reader α) : (r >>= k) s = r s := by
  cases h : r s with
  | ok a t => exact absurd hs (hr.rest_ne_nil h)
  | error e t => exact Stateful.bind_of_error h

/-- A reader never gives tokens back. -/
def Returns (r : Reader α) : Prop :=
  ∀ s a s', r s = .ok a s' → s'.rest.length ≤ s.rest.length

theorem returns_sees : Returns (sees lexemes) := by
  intro s b s' h
  obtain ⟨-, rfl⟩ := sees_eq_ok_iff.mp h
  exact Nat.le_refl _

section Collect

variable {item : Reader α} {more : Reader Bool}

/-- With room for all tokens that are left, the number of rounds does not matter. -/
theorem collectTo_congr (hitem : Consumes item) (hmore : Returns more) {rounds rounds' : List Token}
    (h : s.rest.length ≤ rounds.length) (h' : s.rest.length ≤ rounds'.length) :
    collectTo item more rounds s = collectTo item more rounds' s := by
  induction rounds generalizing rounds' s with
  | nil =>
    -- no token is left, so the first item fails whatever comes after it
    have hs : s.rest = [] := List.length_eq_zero_iff.mp (Nat.le_zero.mp h)
    cases rounds' with
    | nil => rfl
    | cons _ _ => exact Stateful.bind_congr_right fun a t ha => absurd hs (hitem.rest_ne_nil ha)
  | cons r rounds ih =>
    cases rounds' with
    | nil =>
      have hs : s.rest = [] := List.length_eq_zero_iff.mp (Nat.le_zero.mp h')
      exact Stateful.bind_congr_right fun a t ha => absurd hs (hitem.rest_ne_nil ha)
    | cons r' rounds' =>
      refine Stateful.bind_congr_right fun a t ha => Stateful.bind_congr_right fun b u hb => ?_
      cases b with
      | false => rfl
      | true =>
        have hlt := hitem s a t ha
        have hle := hmore t true u hb
        rw [List.length_cons] at h h'
        exact Stateful.bind_congr_left (ih (by omega) (by omega))

/-- **The loop of `collect`, without its count.** -/
theorem collect_eq (hitem : Consumes item) (hmore : Returns more) :
    collect item more = do
      let first ← item
      if ← more then
        let (second, others) ← collect item more
        return (first, second :: others)
      else
        return (first, []) := by
  funext s
  rw [collect]
  cases hs : s.rest with
  | nil => exact Stateful.bind_congr_right fun a t ha => absurd hs (hitem.rest_ne_nil ha)
  | cons x rounds =>
    refine Stateful.bind_congr_right fun a t ha => Stateful.bind_congr_right fun b u hb => ?_
    cases b with
    | false => rfl
    | true =>
      have hlt := hitem s a t ha
      have hle := hmore t true u hb
      rw [hs, List.length_cons] at hlt
      exact Stateful.bind_congr_left (collectTo_congr hitem hmore (by omega) (Nat.le_refl _))

end Collect

section Chain

variable {operand : Reader NodeId} {operators : List Lexeme}

theorem returns_accept : Returns (accept lexemes) := by
  intro s a s' h
  rcases accept_eq_ok_iff.mp h with ⟨t, rest, -, hs, -, rfl⟩ | ⟨-, -, rfl⟩
  · rw [hs]
    exact Nat.le_succ _
  · exact Nat.le_refl _

theorem chainTo_congr (hoperand : Consumes operand) {rounds rounds' : List Token}
    (h : s.rest.length ≤ rounds.length) (h' : s.rest.length ≤ rounds'.length) :
    chainTo operand operators rounds s = chainTo operand operators rounds' s := by
  induction rounds generalizing rounds' s with
  | nil =>
    have hs : s.rest = [] := List.length_eq_zero_iff.mp (Nat.le_zero.mp h)
    cases rounds' with
    | nil => rfl
    | cons _ _ => exact (hoperand.bind_of_nil hs _).symm
  | cons r rounds ih =>
    cases rounds' with
    | nil =>
      have hs : s.rest = [] := List.length_eq_zero_iff.mp (Nat.le_zero.mp h')
      exact hoperand.bind_of_nil hs _
    | cons r' rounds' =>
      refine Stateful.bind_congr_right fun a t ha => Stateful.bind_congr_right fun o u ho => ?_
      cases o with
      | none => rfl
      | some operator =>
        have hlt := hoperand s a t ha
        have hle := returns_accept t _ u ho
        rw [List.length_cons] at h h'
        exact Stateful.bind_congr_left (ih (by omega) (by omega))

/-- **The loop of `chain`, without its count.** -/
theorem chain_eq (hoperand : Consumes operand) :
    chain operand operators = do
      let left ← operand
      match ← accept operators with
      | some operator => do
        let right ← chain operand operators
        binary operator left right
      | none => return left := by
  funext s
  rw [chain]
  cases hs : s.rest with
  | nil => exact (hoperand.bind_of_nil hs _).symm
  | cons x rounds =>
    refine Stateful.bind_congr_right fun a t ha => Stateful.bind_congr_right fun o u ho => ?_
    cases o with
    | none => rfl
    | some operator =>
      have hlt := hoperand s a t ha
      have hle := returns_accept t _ u ho
      rw [hs, List.length_cons] at hlt
      exact Stateful.bind_congr_left (chainTo_congr hoperand (by omega) (Nat.le_refl _))

end Chain

end Reader

end PizzaLang
