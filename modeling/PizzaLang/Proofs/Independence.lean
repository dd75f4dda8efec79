import PizzaLang.Proofs.Nesting
import PizzaLang.Proofs.WellFormed

/-!
# An included unit means the same as on its own

The only thing that a unit learns of those that include it is which of them are open, and the only
use it makes of that is to refuse an inclusion that leads back to one of them. So a unit that is
compiled while more units are open is either refused as recursive or compiled to the same answer
(`PizzaLang.Compiler.steady_compileNested`), be it a menu or an error.

What is compiled at all is not refused. Each unit that a compilation goes into has therefore the
menu that it has alone, and that menu ends up as one block in the menu of everything that includes
the unit, directly or not (`PizzaLang.Menu.Block`).

The result is `PizzaLang.Compiler.included_as_alone`.
-/

namespace PizzaLang

theorem CompileError.IsRecursion.exists_eq {e : CompileError} (h : e.IsRecursion) :
    ∃ reference id position, e = .resource (.recursiveInclude reference id position) := by
  unfold IsRecursion at h
  split at h
  · exact ⟨_, _, _, rfl⟩
  · exact h.elim

/-! ### More open units -/

/-- **Every unit of a chain is on another chain**, perhaps under another spelling. -/
def Path.AllOn (chain chain' : List Path) : Prop := ∀ p ∈ chain, ∃ q ∈ chain', p.Same q

theorem Path.AllOn.cons {chain chain' : List Path} (h : AllOn chain chain') (unit : Path) :
    AllOn (unit :: chain) (unit :: chain') := by
  intro p hp
  rcases List.mem_cons.mp hp with rfl | hp
  · exact ⟨p, List.mem_cons_self, rfl⟩
  · obtain ⟨q, hq, hsame⟩ := h p hp
    exact ⟨q, List.mem_cons_of_mem _ hq, hsame⟩

namespace CompileM

variable {α β ε : Type} {act x : CompileM α} {f : α → CompileM β} {chain chain' : List Path}

/-- **More open units change nothing** about a step, except that it may be refused as recursive. -/
structure Steady (act : CompileM α) : Prop where
  blind : Blind act
  answer : ∀ chain chain', Path.AllOn chain chain' →
    (∃ e, act.answer chain' = .error e ∧ e.IsRecursion) ∨ act.answer chain' = act.answer chain

/-- A step that does not look at the chain is steady. -/
theorem Blind.steady (h : Blind act)
    (hanswer : ∀ chain chain', act.answer chain' = act.answer chain) : Steady act :=
  ⟨h, fun chain chain' _ => Or.inr (hanswer chain chain')⟩

theorem steady_pure {a : α} : Steady (pure a) := blind_pure.steady fun _ _ => rfl

theorem steady_throw {e : CompileError} : Steady (throw e : CompileM α) :=
  blind_throw.steady fun _ _ => rfl

theorem steady_record {event : Event} : Steady (record event) :=
  blind_record.steady fun _ _ => rfl

theorem steady_lift {wrap : ε → CompileError} {result : Except ε α} : Steady (lift wrap result) :=
  blind_lift.steady fun _ _ => by cases result <;> rfl

theorem Steady.bind (hx : Steady x) (hf : ∀ a, Steady (f a)) : Steady (x >>= f) := by
  refine ⟨hx.blind.bind fun a => (hf a).blind, fun chain chain' hall => ?_⟩
  rw [hx.blind.answer_bind fun a => (hf a).blind, hx.blind.answer_bind fun a => (hf a).blind]
  rcases hx.answer chain chain' hall with ⟨e, he, hrecursion⟩ | heq
  · rw [he]
    exact Or.inl ⟨e, rfl, hrecursion⟩
  · rw [heq]
    cases x.answer chain with
    | ok a => exact (hf a).answer chain chain' hall
    | error e => exact Or.inr rfl

theorem steady_foldlM {step : β → α → CompileM β} (h : ∀ b a, Steady (step b a)) (as : List α)
    (b : β) : Steady (as.foldlM step b) := by
  induction as generalizing b with
  | nil => exact steady_pure
  | cons a as ih =>
    rw [List.foldlM_cons]
    exact (h b a).bind ih

theorem Steady.within {unit : Path} (h : Steady act) : Steady (CompileM.within unit act) := by
  refine ⟨h.blind.within, fun chain chain' hall => ?_⟩
  rw [answer_within, answer_within]
  exact h.answer _ _ (hall.cons unit)

theorem answer_chain_bind {f : List Path → CompileM β} (hf : ∀ units, Blind (f units)) :
    (CompileM.chain >>= f).answer chain = (f chain).answer chain :=
  blind_chain.answer_bind hf

/-- To put the chain on record is not to look at it. -/
theorem Steady.noted {event : List Path → Event} (h : Steady act) :
    Steady (CompileM.chain >>= fun units => record (event units) >>= fun _ => act) := by
  have hnote : ∀ units, Blind (record (event units) >>= fun _ => act) :=
    fun _ => blind_record.bind fun _ => h.blind
  have hanswer : ∀ chain, (CompileM.chain >>= fun units => record (event units) >>= fun _ =>
      act).answer chain = act.answer chain := by
    intro chain
    rw [answer_chain_bind hnote, blind_record.answer_bind fun _ => h.blind]
    rfl
  refine ⟨blind_chain.bind hnote, fun chain chain' hall => ?_⟩
  rw [hanswer, hanswer]
  exact h.answer chain chain' hall

/-- **A step that is refused as recursive under some chains** is steady if it is refused under all
larger ones. -/
theorem Steady.guarded {busy : List Path → Prop} [DecidablePred busy] {e : CompileError}
    (h : Steady act) (he : e.IsRecursion)
    (hbusy : ∀ chain chain', Path.AllOn chain chain' → busy chain → busy chain') :
    Steady (CompileM.chain >>= fun units => if busy units then throw e else act) := by
  have hblind : ∀ units, Blind (if busy units then throw e else act) := by
    intro units
    split
    · exact blind_throw
    · exact h.blind
  refine ⟨blind_chain.bind hblind, fun chain chain' hall => ?_⟩
  rw [answer_chain_bind hblind, answer_chain_bind hblind]
  by_cases hrefused : busy chain'
  · rw [if_pos hrefused]
    exact Or.inl ⟨e, rfl, he⟩
  · rw [if_neg hrefused, if_neg fun hb => hrefused (hbusy chain chain' hall hb)]
    exact h.answer chain chain' hall

end CompileM

namespace Compiler

open CompileM

variable {c : Compiler} {m : Menu} {t : SyntaxTree}

theorem steady_measure {reference : String} {origin : Path} :
    Steady (c.measure reference origin) := by
  refine steady_record.bind fun _ => ?_
  split
  · exact steady_record.bind fun _ => steady_pure
  · exact steady_pure
  · exact steady_pure

theorem steady_symbolOf : Steady (c.symbolOf m t) := by
  rw [symbolOf]
  split
  · exact steady_lift.bind fun _ => steady_lift.bind fun _ => steady_measure.bind fun _ =>
      steady_lift.bind fun _ => steady_lift.bind fun _ => steady_pure
  · exact steady_lift.bind fun _ => steady_pure
  · exact steady_throw

theorem steady_define : Steady (c.define m t) :=
  steady_lift.bind fun _ => steady_symbolOf.bind fun _ => steady_record.bind fun _ =>
    steady_lift.bind fun _ => steady_pure

theorem steady_order : Steady (order m t) :=
  steady_lift.bind fun _ => steady_record.bind fun _ => steady_pure

/-- **A unit that is open stays open** when there are more: here alone the chain is looked at. -/
theorem steady_resolve {unit : Path} {reference : String} {position : Position} :
    Steady (c.resolve unit reference position) := by
  rw [resolve]
  split
  · exact steady_throw
  refine (steady_record.bind fun _ => steady_pure).bind fun _ => steady_lift.bind fun id => ?_
  have hrest : Steady (c.load id >>= fun loaded => lift .resource
      (loaded.mapError fun e => .unreachable reference .inclusion e.message position) >>=
        fun text => pure (id, text)) :=
    steady_pure.noted.bind fun _ => steady_lift.bind fun _ => steady_pure
  refine hrest.guarded trivial fun chain chain' hall hbusy => ?_
  rcases hbusy with hunit | ⟨other, hother, hsame⟩
  · exact Or.inl hunit
  · obtain ⟨q, hq, hq'⟩ := hall other hother
    exact Or.inr ⟨q, hq, hsame.trans hq'⟩

theorem steady_analyzeWith {compile : Path → String → CompileM Menu}
    (hcompile : ∀ id text, Steady (compile id text)) {unit : Path} {tree : Option SyntaxTree} :
    Steady (c.analyzeWith compile unit tree) := by
  have hstatement : ∀ m t, Steady (c.statement compile m t) := by
    intro m t
    rw [statement]
    split
    · exact steady_lift.bind fun _ => steady_resolve.bind fun _ => steady_record.bind fun _ =>
        (hcompile _ _).bind fun _ => steady_lift
    · exact steady_define
    · exact steady_order
    · exact steady_throw
  cases tree with
  | none => exact steady_throw
  | some tree =>
    exact (steady_foldlM hstatement _ _).bind fun _ => steady_record.bind fun _ => steady_pure

/-- **More open units change nothing** about the compilation of a unit, except that it may be
refused as recursive. -/
theorem steady_compileNested (room : Nat) (unit : Path) (text : String) :
    Steady (c.compileNested room unit text) := by
  induction room generalizing unit text with
  | zero => exact steady_throw
  | succ room ih =>
    refine steady_lift.bind fun tokens => steady_record.bind fun _ => ?_
    refine steady_lift.bind fun forest => steady_record.bind fun _ => ?_
    exact Steady.within (steady_analyzeWith ih).noted

end Compiler

/-! ### Blocks of a menu -/

/-- **A menu is a block of another**: its instructions stand there one behind the other, and so do
its declarations. -/
structure Menu.Block (n m : Menu) : Prop where
  instructions : ∃ before after, m.instructions = before ++ n.instructions ++ after
  symbols : ∃ before after, m.symbols = (SymbolTable.append before n.symbols).append after

namespace Menu.Block

variable {m n k : Menu}

theorem refl (m : Menu) : m.Block m :=
  ⟨⟨[], [], by simp⟩, ⟨.empty, .empty, by simp⟩⟩

theorem trans (h : k.Block n) (h' : n.Block m) : k.Block m := by
  obtain ⟨⟨a, b, hi⟩, ⟨p, q, hs⟩⟩ := h
  obtain ⟨⟨a', b', hi'⟩, ⟨p', q', hs'⟩⟩ := h'
  refine ⟨⟨a' ++ a, b ++ b', ?_⟩, ⟨p'.append p, q.append q', ?_⟩⟩
  · simp [hi', hi]
  · simp [hs', hs, SymbolTable.append_assoc]

/-- What is added comes behind what is there. -/
theorem left {instructions : List Instruction} {symbols : SymbolTable} :
    m.Block ⟨m.unit, m.instructions ++ instructions, m.symbols.append symbols⟩ :=
  ⟨⟨[], instructions, by simp⟩, ⟨.empty, symbols, by simp⟩⟩

theorem right : n.Block ⟨m.unit, m.instructions ++ n.instructions, m.symbols.append n.symbols⟩ :=
  ⟨⟨m.instructions, [], by simp⟩, ⟨m.symbols, .empty, by simp⟩⟩

/-- In a table that has no name twice, a block of it keeps its meaning. -/
theorem within (h : n.Block m) (hm : m.symbols.Keyed) : n.symbols.Within m.symbols := by
  obtain ⟨before, after, hs⟩ := h.symbols
  have hdis : ∀ name ∈ n.symbols.names, name ∉ before.names := by
    have hnodup := hm.nodup
    rw [hs, SymbolTable.names_append, SymbolTable.names_append] at hnodup
    intro name hname hbefore
    exact (List.nodup_append.mp (List.nodup_append.mp hnodup).1).2.2 name hbefore name hname rfl
  intro name s hget
  rw [hs]
  exact SymbolTable.within_append_left _ _ (SymbolTable.within_append_right hdis _ _ hget)

end Menu.Block

namespace Compiler

open CompileM

variable {c : Compiler} {m m' n : Menu} {t : SyntaxTree} {ts : List SyntaxTree} {s s' : Session}
  {room limit : Nat} {unit u : Path} {text : String}

/-- **What is compiled at some depth is compiled to the same alone**, with more room. -/
theorem answer_alone (hroom : room ≤ limit) (h : c.compileNested room unit text s = .ok m s') :
    (c.compileNested limit unit text).answer [] = .ok m := by
  have hsteady := steady_compileNested (c := c) room unit text
  have hchain : (c.compileNested room unit text).answer s.chain = .ok m :=
    hsteady.blind.answer_eq_ok_iff.mpr ⟨s', h⟩
  have halone : (c.compileNested room unit text).answer [] = .ok m := by
    rcases hsteady.answer [] s.chain (fun _ hp => absurd hp List.not_mem_nil) with ⟨e, he, -⟩ | heq
    · rw [hchain] at he
      cases he
    · rw [← heq, hchain]
  obtain ⟨s₁, hrun⟩ := (hsteady.blind.answer_eq_ok_iff (s := .ofChain [])).mp halone
  have hrun' : c.compileNested limit unit text (.ofChain []) = .ok m s₁ := by
    rw [extends_compileNested c hroom unit text _ (fun e s₂ he => ?_), hrun]
    rw [hrun] at he
    cases he
  exact ((blind_compileNested limit unit text).answer_eq_ok_iff (s := .ofChain [])).mpr ⟨s₁, hrun'⟩

/-- **A unit stands in a menu as it is alone**: the menu that it has alone is a block of it. -/
def Holds (c : Compiler) (limit : Nat) (m : Menu) (u : Path) : Prop :=
  ∃ text n, c.sources.load u = .ok text ∧ (c.compileNested limit u text).answer [] = .ok n ∧
    n.Block m

theorem Holds.mono (h : c.Holds limit m u) (hblock : m.Block m') : c.Holds limit m' u := by
  obtain ⟨text, n, htext, hn, hblock'⟩ := h
  exact ⟨text, n, htext, hn, hblock'.trans hblock⟩

/-- What is known of a unit that has been compiled to a menu: it is compiled to the same alone, and
so is every unit that it goes into. -/
def HeldAlone (c : Compiler) (limit : Nat) (unit : Path) (text : String) (m : Menu) : Prop :=
  (c.compileNested limit unit text).answer [] = .ok m ∧ m.symbols.Keyed ∧
    ∃ walk, c.sources.WalkOf unit text walk ∧ ∀ u ∈ unitsOf walk, c.Holds limit m u

/-- **One inclusion** puts the menu of a unit behind what is there. -/
theorem includeUnit_holds {compile : Path → String → CompileM Menu}
    (hcompile : ∀ id text s n s', compile id text s = .ok n s' → c.HeldAlone limit id text n)
    (h : c.includeUnit compile m t s = .ok m' s') :
    ∃ id tree inner, c.sources.Includes m.unit t id tree ∧
      c.sources.Walk id tree.children inner ∧ m.Block m' ∧ m'.unit = m.unit ∧
      ∀ u ∈ id :: unitsOf inner, c.Holds limit m' u := by
  simp only [includeUnit, Stateful.bind_eq_ok_iff, lift_eq_ok_iff] at h
  obtain ⟨path, _, ⟨hpath, rfl⟩, ⟨id, text⟩, s₁, hresolve, -, _, -, n, s₂, hn, habsorb, rfl⟩ := h
  obtain ⟨hid, htext, -, -⟩ := resolve_sound hresolve
  obtain ⟨halone, hkeyed, inner, ⟨tree, htree, hwalk⟩, hinner⟩ := hcompile _ _ _ _ _ hn
  obtain ⟨-, rfl⟩ := (absorb_eq_ok_iff hkeyed).mp habsorb
  refine ⟨id, tree, inner, ⟨path, text, hpath, hid, htext, htree⟩, hwalk, .left, rfl, ?_⟩
  rw [List.forall_mem_cons]
  exact ⟨⟨text, n, htext, halone, .right⟩, fun u hu => (hinner u hu).mono .right⟩

/-- **A run through statements** keeps the menu that it starts from, and holds every unit that it
goes into. -/
theorem statements_hold {compile : Path → String → CompileM Menu}
    (hcompile : ∀ id text s n s', compile id text s = .ok n s' → c.HeldAlone limit id text n)
    (h : ts.foldlM (c.statement compile) m s = .ok m' s') :
    ∃ walk, c.sources.Walk m.unit ts walk ∧ m.Block m' ∧
      ∀ u ∈ unitsOf walk, c.Holds limit m' u := by
  induction ts generalizing m s with
  | nil =>
    obtain ⟨rfl, rfl⟩ := Stateful.pure_eq_ok_iff.mp h
    exact ⟨[], .done, .refl m, fun _ hu => absurd hu List.not_mem_nil⟩
  | cons t ts ih =>
    rw [List.foldlM_cons] at h
    obtain ⟨m₁, s₁, ht, h⟩ := Stateful.bind_eq_ok_iff.mp h
    obtain ⟨walk, hwalk, hblock, hholds⟩ := ih h
    cases hkind : t.kind
    case inclusion =>
      rw [statement, hkind] at ht
      obtain ⟨id, tree, inner, hto, hinner, hblock₁, hunit, hholds₁⟩ :=
        includeUnit_holds hcompile ht
      refine ⟨_, .enter hkind hto hinner (hunit ▸ hwalk), hblock₁.trans hblock, fun u hu => ?_⟩
      rw [unitsOf_unit, unitsOf_append, ← List.cons_append, List.mem_append] at hu
      rcases hu with hu | hu
      · exact (hholds₁ u hu).mono hblock
      · exact hholds u hu
    case definition =>
      rw [statement, hkind] at ht
      obtain ⟨⟨d, symbol, -, -, -, rfl⟩, -⟩ := define_sound ht
      have hblock₁ : m.Block ⟨m.unit, m.instructions ++ [], m.symbols.append (.only symbol)⟩ :=
        .left
      rw [List.append_nil] at hblock₁
      exact ⟨_, .meet (Or.inl hkind) hwalk, hblock₁.trans hblock, hholds⟩
    case make =>
      rw [statement, hkind] at ht
      obtain ⟨⟨pizza, -, rfl⟩, -⟩ := order_sound (c := c) ht
      have hblock₁ : m.Block ⟨m.unit, m.instructions ++ [⟨t.position, pizza⟩],
          m.symbols.append .empty⟩ := .left
      rw [SymbolTable.append_empty] at hblock₁
      exact ⟨_, .meet (Or.inr hkind) hwalk, hblock₁.trans hblock, hholds⟩
    all_goals
      rw [statement, hkind] at ht
      exact absurd ht Stateful.throw_ne_ok

/-- **A unit that is compiled holds every unit that it goes into**, at whatever depth. -/
theorem compileNested_holds (hroom : room ≤ limit)
    (h : c.compileNested room unit text s = .ok m s') : c.HeldAlone limit unit text m := by
  induction room generalizing unit text s m s' with
  | zero => exact absurd h Stateful.throw_ne_ok
  | succ room ih =>
    obtain ⟨tree, walk, htree, hmade, -, -⟩ := compileNested_sound h
    refine ⟨answer_alone hroom h, hmade.keyed SymbolTable.keyed_empty, ?_⟩
    simp only [compileNested, Stateful.bind_eq_ok_iff, lift_eq_ok_iff, within_eq_ok_iff] at h
    obtain ⟨tokens, _, ⟨htokens, rfl⟩, -, _, -, forest, _, ⟨hforest, rfl⟩, -, _, -, _,
      ⟨_, _, -, -, _, -, h⟩, rfl⟩ := h
    have hread : forestOf unit text = .ok forest :=
      Fallible.bind_eq_ok_iff.mpr ⟨tokens, htokens, Fallible.mapError_eq_ok_iff.mpr hforest⟩
    obtain ⟨forest', hread', htree'⟩ := id htree
    obtain rfl := Except.ok.inj (hread.symm.trans hread')
    rw [htree'] at h
    obtain ⟨m₁, s₁, hfold, h⟩ := Stateful.bind_eq_ok_iff.mp h
    obtain ⟨-, _, -, h⟩ := Stateful.bind_eq_ok_iff.mp h
    obtain ⟨rfl, -⟩ := Stateful.pure_eq_ok_iff.mp h
    obtain ⟨walk', hwalk', -, hholds⟩ :=
      statements_hold (fun id text s n s' hn => ih (by omega) hn) hfold
    exact ⟨walk', ⟨tree, htree, hwalk'⟩, hholds⟩

/-- **An included unit means the same as on its own.**

* Let a unit be compiled while some units are open, and again while these and perhaps others are.
  The second time it is refused as recursive, or what comes out is the same, be it a menu or an
  error.
* If a unit is compiled, then so is, alone and with the text that it is loaded with, every unit that
  it goes into. The menu that such a unit has alone is closed in itself, so that it uses nothing of
  what includes it. Its instructions are one block of the instructions of the whole, and its
  declarations are one block of the declarations, where they keep their meaning. -/
theorem included_as_alone (c : Compiler) :
    (∀ (room : Nat) (unit : Path) (text : String) (s s' : Session),
      Path.AllOn s.chain s'.chain →
      (∃ reference id position, ((c.compileNested room unit text).runFrom s').1 =
        .error (.resource (.recursiveInclude reference id position))) ∨
      ((c.compileNested room unit text).runFrom s').1 =
        ((c.compileNested room unit text).runFrom s).1) ∧
    ∀ (unit : Path) (text : String) (s : Session) (m : Menu) (s' : Session),
      c.compileUnit unit text s = .ok m s' →
      ∃ walk, c.sources.WalkOf unit text walk ∧ s'.visited = s.visited ++ unit :: unitsOf walk ∧
        ∀ u ∈ unitsOf walk, ∃ text' n s'', c.sources.load u = .ok text' ∧
          c.compileUnit u text' (.ofChain []) = .ok n s'' ∧ n.WellFormed ∧ n.Block m ∧
          n.symbols.Within m.symbols := by
  constructor
  · intro room unit text s s' hall
    have hsteady := steady_compileNested (c := c) room unit text
    rw [hsteady.blind.runFrom_fst, hsteady.blind.runFrom_fst]
    rcases hsteady.answer _ _ hall with ⟨e, he, hrecursion⟩ | heq
    · obtain ⟨reference, id, position, rfl⟩ := hrecursion.exists_eq
      exact Or.inl ⟨reference, id, position, he⟩
    · exact Or.inr heq
  · intro unit text s m s' h
    obtain ⟨tree, walk, htree, hmade, hpassed, -⟩ := compileNested_sound h
    obtain ⟨-, hkeyed, walk', hwalk', hholds⟩ := compileNested_holds (Nat.le_refl _) h
    obtain rfl := hwalk'.unique ⟨tree, htree, hmade.toWalk⟩
    refine ⟨walk', hwalk', hpassed.visited, fun u hu => ?_⟩
    obtain ⟨text', n, htext', hn, hblock⟩ := hholds u hu
    obtain ⟨s'', hrun⟩ :=
      ((blind_compileNested _ u text').answer_eq_ok_iff (s := .ofChain [])).mp hn
    obtain ⟨tree', inner, -, hmade', -⟩ := compileNested_sound hrun
    exact ⟨text', n, s'', htext', hrun, (Menu.WellFormed.blank u).elaborates hmade', hblock,
      hblock.within hkeyed⟩

/-- The unit that the small supply includes through another one stands in the whole as it is alone,
and the whole itself is the same, or is refused, whatever is open. -/
theorem included_as_alone_pantry :
    ∃ m s', pantry.compileUnit ⟨"main.pf"⟩ pantryOrder (.ofChain []) = .ok m s' ∧
      (∀ s, (∃ reference id position,
          ((pantry.compileUnit ⟨"main.pf"⟩ pantryOrder).runFrom s).1 =
            .error (.resource (.recursiveInclude reference id position))) ∨
          ((pantry.compileUnit ⟨"main.pf"⟩ pantryOrder).runFrom s).1 = .ok m) ∧
      ∃ text n s'', pantry.sources.load ⟨"base.pf"⟩ = .ok text ∧
        pantry.compileUnit ⟨"base.pf"⟩ text (.ofChain []) = .ok n s'' ∧ n.WellFormed ∧
        n.Block m := by
  obtain ⟨m, s', hm, -, -, hvisited⟩ := pantryOrder_compiles
  refine ⟨m, s', hm, fun s => ?_, ?_⟩
  · have halone : ((pantry.compileUnit ⟨"main.pf"⟩ pantryOrder).runFrom (.ofChain [])).1 =
        .ok m := by
      rw [runFrom, hm]
    rw [← halone]
    exact (included_as_alone pantry).1 _ _ _ (.ofChain []) s fun _ hp => absurd hp List.not_mem_nil
  · obtain ⟨walk, -, hwalk, hall⟩ := (included_as_alone pantry).2 _ _ _ _ _ hm
    have hunits : unitsOf walk = [⟨"menu.pf"⟩, ⟨"base.pf"⟩] := by
      rw [hvisited] at hwalk
      exact (List.cons.inj hwalk).2.symm
    obtain ⟨text, n, s'', htext, hrun, hn, hblock, -⟩ := hall ⟨"base.pf"⟩ (by simp [hunits])
    exact ⟨text, n, s'', htext, hrun, hn, hblock⟩

end Compiler

end PizzaLang
