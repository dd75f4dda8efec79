import PizzaLang.Proofs.Outcome
import PizzaLang.Compile.Unit

/-!
# Compilations do not read their record

A session holds the chain of open units and a record of what has happened. The record is written
and never read, and the chain is left as it was found, however a step ends. So what comes out of a
step is a function of the chain alone (`PizzaLang.CompileM.answer`), and it does not matter what
has been compiled before.

`PizzaLang.CompileM.Blind` says this of a step. It holds of the basic steps and passes on to what
is made of them, up to whole units (`PizzaLang.Compiler.blind_compileNested`), and the answer of a
sequence is the sequence of the answers (`PizzaLang.CompileM.Blind.answer_bind`). For the chain this
is `PizzaLang.Compiler.chain_restored`.
-/

namespace PizzaLang

namespace CompileM

variable {α β ε : Type} {act x : CompileM α} {f : α → CompileM β} {s : Session}
  {chain : List Path}

theorem runFrom_bind : (x >>= f).runFrom s =
    match x.runFrom s with
    | (.ok a, t) => (f a).runFrom t
    | (.error e, t) => (.error e, t) := by
  cases hx : x s with
  | ok a t => simp only [runFrom, Stateful.bind_of_ok hx, hx]
  | error e t => simp only [runFrom, Stateful.bind_of_error hx, hx]

/-- **What comes out of a step** while the units of the chain are open, with nothing on record. -/
def answer (act : CompileM α) (chain : List Path) : Except CompileError α :=
  (act.runFrom (.ofChain chain)).1

/-- **A step reads nothing but the chain**, and leaves it as it was, however it ends. -/
def Blind (act : CompileM α) : Prop :=
  ∀ s, ∃ t, t.chain = s.chain ∧ act.runFrom s = (act.answer s.chain, t)

theorem Blind.runFrom_fst (h : Blind act) (s : Session) :
    (act.runFrom s).1 = act.answer s.chain := by
  obtain ⟨t, -, hrun⟩ := h s
  rw [hrun]

theorem Blind.chain_eq (h : Blind act) : (act.runFrom s).2.chain = s.chain := by
  obtain ⟨t, ht, hrun⟩ := h s
  rwa [hrun]

/-- What comes out of a step is not changed by one before it. -/
theorem Blind.runFrom_runFrom_fst {act' : CompileM β} (h : Blind act) (h' : Blind act') :
    (act'.runFrom (act.runFrom s).2).1 = (act'.runFrom s).1 := by
  rw [h'.runFrom_fst, h'.runFrom_fst, h.chain_eq]

theorem Blind.answer_eq_ok_iff (h : Blind act) {a : α} :
    act.answer s.chain = .ok a ↔ ∃ t, act s = .ok a t := by
  rw [← h.runFrom_fst, runFrom]
  cases act s <;> simp

/-! ### Sequences -/

theorem Blind.answer_bind (hx : Blind x) (hf : ∀ a, Blind (f a)) :
    (x >>= f).answer chain = x.answer chain >>= fun a => (f a).answer chain := by
  obtain ⟨t, ht, hrun⟩ := hx (.ofChain chain)
  rw [answer, runFrom_bind, hrun]
  change _ = x.answer (Session.ofChain chain).chain >>= fun a => (f a).answer chain
  cases x.answer (Session.ofChain chain).chain with
  | ok a =>
    obtain ⟨u, -, hrun'⟩ := hf a t
    change ((f a).runFrom t).1 = (f a).answer chain
    rw [hrun', ht]
    rfl
  | error e => rfl

theorem Blind.bind (hx : Blind x) (hf : ∀ a, Blind (f a)) : Blind (x >>= f) := by
  intro s
  obtain ⟨t, ht, hrun⟩ := hx s
  rw [runFrom_bind, hrun, hx.answer_bind hf]
  cases x.answer s.chain with
  | ok a =>
    obtain ⟨u, hu, hrun'⟩ := hf a t
    refine ⟨u, hu.trans ht, ?_⟩
    change (f a).runFrom t = ((f a).answer s.chain, u)
    rw [hrun', ht]
  | error e => exact ⟨t, ht, rfl⟩

/-- **A sequence answers** if its first step does, and then the others. -/
theorem Blind.answer_bind_eq_ok_iff (hx : Blind x) (hf : ∀ a, Blind (f a)) {b : β} :
    (x >>= f).answer chain = .ok b ↔
      ∃ a, x.answer chain = .ok a ∧ (f a).answer chain = .ok b := by
  rw [hx.answer_bind hf, Fallible.bind_eq_ok_iff]

theorem blind_pure {a : α} : Blind (pure a) := fun s => ⟨s, rfl, rfl⟩

theorem blind_throw {e : CompileError} : Blind (throw e : CompileM α) := fun s => ⟨s, rfl, rfl⟩

theorem blind_foldlM {step : β → α → CompileM β} (h : ∀ b a, Blind (step b a)) (as : List α)
    (b : β) : Blind (as.foldlM step b) := by
  induction as generalizing b with
  | nil => exact blind_pure
  | cons a as ih =>
    rw [List.foldlM_cons]
    exact (h b a).bind ih

/-! ### Steps -/

theorem blind_record {event : Event} : Blind (record event) :=
  fun s => ⟨{ s with events := s.events.push event }, rfl, rfl⟩

theorem blind_chain : Blind CompileM.chain := fun s => ⟨s, rfl, rfl⟩

theorem blind_lift {wrap : ε → CompileError} {result : Except ε α} : Blind (lift wrap result) := by
  intro s
  refine ⟨s, rfl, ?_⟩
  cases result <;> rfl

theorem answer_lift_eq_ok_iff {wrap : ε → CompileError} {result : Except ε α} {a : α} :
    (lift wrap result).answer chain = .ok a ↔ result = .ok a := by
  cases result <;> simp [answer, runFrom, lift]

theorem answer_throw_ne_ok {e : CompileError} {a : α} :
    (throw e : CompileM α).answer chain ≠ .ok a := by
  intro h
  cases h

theorem answer_record {event : Event} : (record event).answer chain = .ok () := rfl

theorem runFrom_within {unit : Path} : (within unit act).runFrom s =
    ((act.runFrom { s with chain := unit :: s.chain }).1,
      pop (act.runFrom { s with chain := unit :: s.chain }).2) := by
  have hpush : (do push unit; act : CompileM α) s = act { s with chain := unit :: s.chain } :=
    Stateful.bind_of_ok rfl
  rw [runFrom, within, hpush, runFrom]
  cases act { s with chain := unit :: s.chain } <;> rfl

theorem answer_within {unit : Path} :
    (within unit act).answer chain = act.answer (unit :: chain) := by
  rw [answer, runFrom_within]
  rfl

/-- The unit that is worked on leaves the chain again. -/
theorem Blind.within {unit : Path} (h : Blind act) : Blind (CompileM.within unit act) := by
  intro s
  obtain ⟨t, ht, hrun⟩ := h { s with chain := unit :: s.chain }
  refine ⟨pop t, ?_, ?_⟩
  · rw [pop, ht]
    rfl
  · rw [runFrom_within, hrun, answer_within]

end CompileM

namespace Compiler

open CompileM

variable {c : Compiler} {menu : Menu} {t : SyntaxTree}

/-! ### Resources -/

theorem blind_locate {reference : Path} {origin : Option Path} :
    Blind (c.locate reference origin) :=
  blind_record.bind fun _ => blind_pure

theorem blind_load {unit : Path} : Blind (c.load unit) :=
  blind_chain.bind fun _ => blind_record.bind fun _ => blind_pure

theorem blind_measure {reference : String} {origin : Path} :
    Blind (c.measure reference origin) := by
  refine blind_record.bind fun _ => ?_
  split
  · exact blind_record.bind fun _ => blind_pure
  · exact blind_pure
  · exact blind_pure

/-! ### Statements -/

theorem blind_symbolOf {definition : SyntaxTree} : Blind (c.symbolOf menu definition) := by
  rw [symbolOf]
  split
  · exact blind_lift.bind fun _ => blind_lift.bind fun _ => blind_measure.bind fun _ =>
      blind_lift.bind fun _ => blind_lift.bind fun _ => blind_pure
  · exact blind_lift.bind fun _ => blind_pure
  · exact blind_throw

theorem blind_define : Blind (c.define menu t) :=
  blind_lift.bind fun _ => blind_symbolOf.bind fun _ => blind_record.bind fun _ =>
    blind_lift.bind fun _ => blind_pure

theorem blind_order : Blind (order menu t) :=
  blind_lift.bind fun _ => blind_record.bind fun _ => blind_pure

/-- The test for open units is where the chain is read. -/
theorem blind_resolve {unit : Path} {reference : String} {position : Position} :
    Blind (c.resolve unit reference position) := by
  rw [resolve]
  split
  · exact blind_throw
  · refine blind_locate.bind fun _ => blind_lift.bind fun _ => blind_chain.bind fun _ => ?_
    split
    · exact blind_throw
    · exact blind_load.bind fun _ => blind_lift.bind fun _ => blind_pure

section Statements

variable {compile : Path → String → CompileM Menu} (hcompile : ∀ id text, Blind (compile id text))
include hcompile

theorem blind_includeUnit : Blind (c.includeUnit compile menu t) :=
  blind_lift.bind fun _ => blind_resolve.bind fun _ => blind_record.bind fun _ =>
    (hcompile _ _).bind fun _ => blind_lift

theorem blind_statement : Blind (c.statement compile menu t) := by
  rw [statement]
  split
  · exact blind_includeUnit hcompile
  · exact blind_define
  · exact blind_order
  · exact blind_throw

theorem blind_analyzeWith {unit : Path} {tree : Option SyntaxTree} :
    Blind (c.analyzeWith compile unit tree) := by
  cases tree with
  | none => exact blind_throw
  | some tree =>
    exact (blind_foldlM (fun _ _ => blind_statement hcompile) _ _).bind fun _ =>
      blind_record.bind fun _ => blind_pure

end Statements

/-- **A compilation of a unit reads nothing but the chain**, and leaves it as it was. -/
theorem blind_compileNested (room : Nat) (unit : Path) (text : String) :
    Blind (c.compileNested room unit text) := by
  induction room generalizing unit text with
  | zero => exact blind_throw
  | succ room ih =>
    refine blind_lift.bind fun tokens => blind_record.bind fun _ => blind_lift.bind fun forest => ?_
    refine blind_record.bind fun _ => Blind.within ?_
    exact blind_chain.bind fun _ => blind_record.bind fun _ => blind_analyzeWith ih

/-- **The chain is restored on every way out.** From any session and with any compiler, the chain
that is left when a tree has been analysed or a unit compiled is the one that was there, whether
there is a menu or an error, at whatever depth and in whatever stage the error has come up. So a
unit that is compiled next comes out as if nothing had been compiled before it. -/
theorem chain_restored (c : Compiler) (s : Session) :
    (∀ unit tree, ((c.analyze unit tree).runFrom s).2.chain = s.chain ∧
      ∀ room unit' text, ((c.compileNested room unit' text).runFrom
          ((c.analyze unit tree).runFrom s).2).1 =
        ((c.compileNested room unit' text).runFrom s).1) ∧
    ∀ room unit text, ((c.compileNested room unit text).runFrom s).2.chain = s.chain ∧
      ∀ room' unit' text', ((c.compileNested room' unit' text').runFrom
          ((c.compileNested room unit text).runFrom s).2).1 =
        ((c.compileNested room' unit' text').runFrom s).1 := by
  have hrestored : ∀ {act : CompileM Menu}, Blind act → (act.runFrom s).2.chain = s.chain ∧
      ∀ room unit text, ((c.compileNested room unit text).runFrom (act.runFrom s).2).1 =
        ((c.compileNested room unit text).runFrom s).1 := by
    refine fun hact => ⟨hact.chain_eq, fun room unit text => ?_⟩
    exact hact.runFrom_runFrom_fst (blind_compileNested room unit text)
  refine ⟨fun unit tree => hrestored (blind_analyzeWith fun id text => ?_), ?_⟩
  · exact blind_compileNested c.limit id text
  · exact fun room unit text => hrestored (blind_compileNested room unit text)

end Compiler

end PizzaLang
