import PizzaLang.Proofs.Linkage
import PizzaLang.Proofs.Reading

/-!
# Readers keep to their forest

Nodes are numbers, and nothing in a number says that there is a node of that number, or that it
may still be attached. Readers never get it wrong, on tokens that are a program and on tokens that
are not: whatever they attach, and whatever they attach it to, is a node that has been made
already, and what they attach is the top of a tree that they have just put together.

* `PizzaLang.Forest.Grows f g`: the steps that have made `g` from `f` name only nodes that are
  there;
* `PizzaLang.Forest.Raised f g`: moreover the steps are permitted, and no node of `f` gets another
  parent;
* `PizzaLang.Forest.Sprouted f g id`: moreover the node `id` is new, and has no parent.

A reader that makes a node makes it sprout (`PizzaLang.Reader.Sprouts`). It may then be hung from
any node that was there before the reader started: going up from there never leads to what is new
(`PizzaLang.Forest.Sprouted.attach`). From this `PizzaLang.Reader.sprouts_program` follows, and
with it `PizzaLang.Cursor.grows_of_readProgram` and `PizzaLang.Cursor.leads_of_readProgram`.

All links of a forest that is read, and its root, lead to nodes of the forest
(`PizzaLang.Forest.InRange.of_grows`).
-/

namespace PizzaLang

namespace Forest

variable {f g h : Forest} {i p c id : Nat} {l : NodeLabel}

theorem size_le_step {s : Step} : f.size ≤ (f.step s).size := by
  cases s with
  | alloc label => exact Nat.le_of_lt lt_size_alloc
  | attach parent child => exact Nat.le_of_eq size_attach.symm
  | setRoot id => exact Nat.le_refl _

theorem Made.size_le {P : Forest → Step → Prop} (h : Made P f g) : f.size ≤ g.size := by
  obtain ⟨steps, hsteps, rfl⟩ := h.exists_run
  refine hsteps.invariant (I := fun g => f.size ≤ g.size) (fun g s hg _ => ?_) (Nat.le_refl _)
  exact Nat.le_trans hg size_le_step

/-- **All links lead to nodes of the forest**, and so does the mark for the root. -/
structure InRange (f : Forest) : Prop where
  root : ∀ id, f.root = some id → id < f.size
  children : ∀ i c, c ∈ f.children i → c < f.size
  parent : ∀ i p, f.parent? i = some p → p < f.size

theorem inRange_empty : empty.InRange := ⟨nofun, nofun, nofun⟩

theorem InRange.alloc (hf : f.InRange) (l : NodeLabel) : (f.alloc l).2.InRange := by
  have hle : f.size ≤ (f.alloc l).2.size := Nat.le_of_lt lt_size_alloc
  refine ⟨fun id hid => ?_, fun i c hc => ?_, fun i p hp => ?_⟩
  · exact Nat.lt_of_lt_of_le (hf.root id hid) hle
  · exact Nat.lt_of_lt_of_le (hf.children i c (children_alloc ▸ hc)) hle
  · exact Nat.lt_of_lt_of_le (hf.parent i p (parent?_alloc ▸ hp)) hle

theorem InRange.attach (hf : f.InRange) (hp : p < f.size) (hc : c < f.size) :
    (f.attach p c).InRange := by
  refine ⟨fun id hid => ?_, fun i d hd => ?_, fun i q hq => ?_⟩ <;> rw [size_attach]
  · exact hf.root id hid
  · rw [children_attach] at hd
    split at hd
    · rcases List.mem_append.mp hd with hd | hd
      · exact hf.children i d hd
      · exact List.mem_singleton.mp hd ▸ hc
    · exact hf.children i d hd
  · rw [parent?_attach] at hq
    split at hq
    · exact Option.some.inj hq ▸ hp
    · exact hf.parent i q hq

theorem InRange.setRoot (hf : f.InRange) (hid : id < f.size) : (f.setRoot id).InRange := by
  refine ⟨fun id' hid' => ?_, hf.children, hf.parent⟩
  obtain rfl : id = id' := Option.some.inj hid'
  exact hid

theorem InRange.step (hf : f.InRange) {s : Step} (hs : f.Possible s) : (f.step s).InRange := by
  cases s with
  | alloc label => exact hf.alloc label
  | attach parent child => exact hf.attach hs.1 hs.2
  | setRoot id => exact hf.setRoot hs

theorem InRange.run (hf : f.InRange) {steps : List Step} (h : Each Possible f steps) :
    (f.run steps).InRange :=
  h.invariant (fun _ _ hf hs => hf.step hs) hf

/-- **Growing keeps all links in range.** -/
theorem InRange.of_grows (hf : f.InRange) (h : f.Grows g) : g.InRange := by
  obtain ⟨steps, hsteps, rfl⟩ := h.exists_run
  exact hf.run hsteps

/-- **The way down from a node meets only nodes that are there.** -/
theorem InRange.lt_size_of_mem_documentOrder (hf : f.InRange) (hi : i < f.size) :
    ∀ x ∈ f.documentOrder i, x < f.size := by
  have hdown : ∀ n i, i < f.size → ∀ x ∈ (f.unfoldTo n i).preorder, x < f.size := by
    intro n
    induction n with
    | zero =>
      intro i hi x hx
      obtain rfl := List.mem_singleton.mp hx
      exact hi
    | succ n ih =>
      intro i hi x hx
      rw [unfoldTo, Tree.preorder_eq] at hx
      rcases List.mem_cons.mp hx with rfl | hx
      · exact hi
      · obtain ⟨t, ht, hx⟩ := List.mem_flatMap.mp hx
        obtain ⟨c, hc, rfl⟩ := List.mem_map.mp ht
        exact ih c (hf.children i c hc) x hx
  exact hdown f.size i hi

/-! ### Raising -/

/-- **A forest is raised**: it grows, by permitted steps as long as all links are in range, and the
nodes that were there keep their parents. -/
structure Raised (f g : Forest) : Prop where
  grows : f.Grows g
  leads : f.InRange → f.Leads g
  parents : ∀ i < f.size, g.parent? i = f.parent? i

/-- **A node has sprouted** while a forest was raised: it is new, and has no parent. -/
structure Sprouted (f g : Forest) (id : Nat) : Prop extends Raised f g where
  new : f.size ≤ id
  lt_size : id < g.size
  free : g.parent? id = none

theorem Raised.refl : f.Raised f := ⟨.refl, fun _ => .refl, fun _ _ => rfl⟩

theorem Raised.size_le (h : f.Raised g) : f.size ≤ g.size := h.grows.size_le

theorem Raised.trans (hfg : f.Raised g) (hgh : g.Raised h) : f.Raised h := by
  refine ⟨hfg.grows.trans hgh.grows, fun hf => ?_, fun i hi => ?_⟩
  · exact (hfg.leads hf).trans (hgh.leads (hf.of_grows hfg.grows))
  · rw [hgh.parents i (Nat.lt_of_lt_of_le hi hfg.size_le), hfg.parents i hi]

/-- A node that is made sprouts. -/
theorem sprouted_alloc : f.Sprouted (f.alloc l).2 f.size where
  grows := Made.refl.step (s := .alloc l) trivial
  leads _ := Made.refl.step (s := .alloc l) trivial
  parents _ _ := parent?_alloc
  new := Nat.le_refl _
  lt_size := lt_size_alloc
  free := by
    rw [parent?_alloc, parent?, get_of_size_le (Nat.le_refl _)]
    rfl

theorem parent?_attach_of_ne (h : i ≠ c) : (f.attach p c).parent? i = f.parent? i := by
  rw [parent?_attach, if_neg fun hand => h hand.1]

theorem Raised.attach (hfg : f.Raised g) (hp : p < g.size) (hc : c < g.size) (hnew : f.size ≤ c)
    (hfree : g.parent? c = none) (htop : f.InRange → c ≠ g.top p) : f.Raised (g.attach p c) := by
  refine ⟨hfg.grows.step (s := .attach p c) ⟨hp, hc⟩, fun hf => ?_, fun i hi => ?_⟩
  · exact (hfg.leads hf).step (s := .attach p c) ⟨⟨hp, hc⟩, hfree, htop hf⟩
  · rw [parent?_attach_of_ne (by omega), hfg.parents i hi]

theorem Sprouted.later (hi : f.Sprouted g i) (hgh : g.Raised h) : f.Sprouted h i where
  toRaised := hi.toRaised.trans hgh
  new := hi.new
  lt_size := Nat.lt_of_lt_of_le hi.lt_size hgh.size_le
  free := by rw [hgh.parents i hi.lt_size, hi.free]

theorem Sprouted.since (hi : g.Sprouted h i) (hfg : f.Raised g) : f.Sprouted h i where
  toRaised := hfg.trans hi.toRaised
  new := Nat.le_trans hfg.size_le hi.new
  lt_size := hi.lt_size
  free := hi.free

/-- **What has sprouted is hung from an older node.** Going up from there meets only nodes that
were there before, so it does not lead to what has sprouted. -/
theorem Sprouted.attach (hc : f.Sprouted g c) (hp : p < f.size) : f.Raised (g.attach p c) := by
  have hplt : p < g.size := Nat.lt_of_lt_of_le hp hc.size_le
  refine hc.toRaised.attach hplt hc.lt_size hc.new hc.free fun hf => ?_
  have hold : g.top p < f.size := by
    refine climb_lt (fun j hj q hq => ?_) hp g.size
    rw [hc.parents j hj] at hq
    exact hf.parent j q hq
  exact Nat.ne_of_gt (Nat.lt_of_lt_of_le hold hc.new)

/-- **What has sprouted takes other new nodes below it.** Nothing is above it, so it is the top of
its tree. -/
theorem Sprouted.adopt (hi : f.Sprouted g i) (hc : c < g.size) (hnew : f.size ≤ c)
    (hfree : g.parent? c = none) (hne : i ≠ c) : f.Sprouted (g.attach i c) i where
  toRaised := by
    refine hi.toRaised.attach hi.lt_size hc hnew hfree fun _ => ?_
    rw [top, climb_of_parent?_eq_none hi.free]
    exact hne.symm
  new := hi.new
  lt_size := by
    rw [size_attach]
    exact hi.lt_size
  free := by rw [parent?_attach_of_ne hne, hi.free]

/-- **Two nodes that have sprouted become the children of a third.** -/
theorem Sprouted.binary {a b : Nat} (ha : f.Sprouted g a) (hb : g.Sprouted h b) :
    f.Sprouted (((h.alloc l).2.attach h.size a).attach h.size b) h.size := by
  have hsize := hb.size_le
  have halt := ha.lt_size
  have hblt := hb.lt_size
  have hbnew := hb.new
  have hgrown : (h.alloc l).2.size = h.size + 1 := size_alloc
  have hnode : f.Sprouted (h.alloc l).2 h.size :=
    sprouted_alloc.since (ha.toRaised.trans hb.toRaised)
  have hfirst : f.Sprouted ((h.alloc l).2.attach h.size a) h.size := by
    refine hnode.adopt (by omega) ha.new ?_ (by omega)
    rw [parent?_alloc, hb.parents a halt, ha.free]
  refine hfirst.adopt ?_ (Nat.le_trans ha.size_le hbnew) ?_ (by omega)
  · rw [size_attach]
    omega
  · rw [parent?_attach_of_ne (by omega), parent?_alloc, hb.free]

end Forest

namespace Reader

variable {α β : Type} {f : Forest} {s : Cursor} {i p : Nat} {r : Reader α} {c : Reader NodeId}
  {k : α → Reader β} {Q : α → Forest → Prop} {R : β → Forest → Prop}

/-- **A reader tends a forest** that was once `f`: if it succeeds, its result fits the forest that
it leaves, and if it fails it has raised the forest all the same. -/
def Tends (f : Forest) (r : Reader α) (s : Cursor) (Q : α → Forest → Prop) : Prop :=
  (∀ a s', r s = .ok a s' → Q a s'.forest) ∧ ∀ e s', r s = .error e s' → f.Raised s'.forest

/-- A reader raises the forest that it finds. -/
def RaisesAt (r : Reader α) (s : Cursor) : Prop :=
  Tends s.forest r s fun _ g => s.forest.Raised g

/-- **A reader makes a node sprout**, wherever it starts. -/
def Sprouts (r : Reader NodeId) : Prop :=
  ∀ s, Tends s.forest r s fun id g => s.forest.Sprouted g id

/-! ### Rules -/

theorem tends_pure {a : α} (h : Q a s.forest) : Tends f (pure a) s Q := by
  refine ⟨fun b s' hb => ?_, fun e s' he => absurd he Stateful.pure_ne_error⟩
  obtain ⟨rfl, rfl⟩ := Stateful.pure_eq_ok_iff.mp hb
  exact h

theorem Tends.bind (hr : Tends f r s Q) (hk : ∀ a s', Q a s'.forest → Tends f (k a) s' R) :
    Tends f (r >>= k) s R := by
  constructor
  · intro b s' hb
    obtain ⟨a, t, ha, hb⟩ := Stateful.bind_eq_ok_iff.mp hb
    exact (hk a t (hr.1 a t ha)).1 b s' hb
  · intro e s' he
    rcases Stateful.bind_eq_error_iff.mp he with he | ⟨a, t, ha, he⟩
    · exact hr.2 e s' he
    · exact (hk a t (hr.1 a t ha)).2 e s' he

/-- **A reader that tends a forest tends an earlier one.** -/
theorem Tends.since {g : Forest} (hr : Tends g r s Q) (hf : f.Raised g) : Tends f r s Q :=
  ⟨hr.1, fun e s' he => hf.trans (hr.2 e s' he)⟩

theorem Tends.imp {Q' : α → Forest → Prop} (hr : Tends f r s Q) (h : ∀ a g, Q a g → Q' a g) :
    Tends f r s Q' :=
  ⟨fun a s' ha => h a s'.forest (hr.1 a s' ha), hr.2⟩

theorem RaisesAt.raises (hr : RaisesAt r s) (hf : f.Raised s.forest) :
    Tends f r s fun _ g => f.Raised g :=
  (Tends.since hr hf).imp fun _ _ h => hf.trans h

theorem raisesAt_pure {a : α} : RaisesAt (pure a) s := tends_pure .refl

theorem RaisesAt.bind (hr : RaisesAt r s)
    (hk : ∀ a s', s.forest.size ≤ s'.forest.size → RaisesAt (k a) s') : RaisesAt (r >>= k) s :=
  Tends.bind hr fun a s' h => (hk a s' h.size_le).raises h

/-- A reader may raise the forest before it makes a node sprout. -/
theorem sprouts_bind {k : α → Reader NodeId} (hr : ∀ s, RaisesAt r s) (hk : ∀ a, Sprouts (k a)) :
    Sprouts (r >>= k) :=
  fun s => Tends.bind (hr s) fun a s' h => ((hk a s').since h).imp fun _ _ hi => hi.since h

/-- **A node that has sprouted stays free** while a reader raises the forest. -/
theorem RaisesAt.next (hr : RaisesAt r s) (hi : f.Sprouted s.forest i)
    (hk : ∀ a s', f.Sprouted s'.forest i → s.forest.size ≤ s'.forest.size → Tends f (k a) s' R) :
    Tends f (r >>= k) s R :=
  (Tends.since hr hi.toRaised).bind fun a s' h => hk a s' (hi.later h) h.size_le

theorem tends_attach {id : Nat} (hid : f.Sprouted s.forest id) (hp : p < f.size) :
    Tends f (attach p id) s fun _ g => f.Raised g ∧ id < g.size := by
  refine ⟨fun u s' hu => ?_, fun _ _ he => nomatch he⟩
  obtain rfl := attach_eq_ok_iff.mp hu
  exact ⟨hid.attach hp, Nat.lt_of_lt_of_le hid.lt_size (Nat.le_of_eq Forest.size_attach.symm)⟩

/-- A node that is made is hung from one that was there before. -/
theorem Sprouts.raisesAt (hc : Sprouts c) (hp : p < s.forest.size) :
    RaisesAt (do attach p (← c)) s :=
  (hc s).bind fun _ _ hid => (tends_attach hid hp).imp fun _ _ h => h.1

theorem Sprouts.raisesAt_bind {k : NodeId → Reader β} (hc : Sprouts c) (hp : p < s.forest.size)
    (hk : ∀ id s', s.forest.size ≤ s'.forest.size → RaisesAt (k id) s') :
    RaisesAt (c >>= fun id => attach p id >>= fun _ => k id) s :=
  (hc s).bind fun id _ hid => (tends_attach hid hp).bind fun _ s₂ h =>
    (hk id s₂ h.1.size_le).raises h.1

/-- **A node is made and hung from an older one**, and one that has sprouted before stays free. -/
theorem Sprouts.next {k : NodeId → Reader β} (hc : Sprouts c) (hi : f.Sprouted s.forest i)
    (hp : p < s.forest.size)
    (hk : ∀ (id : Nat) s', f.Sprouted s'.forest i → s.forest.size ≤ s'.forest.size →
      id < s'.forest.size → Tends f (k id) s' R) :
    Tends f (c >>= fun id => attach p id >>= fun _ => k id) s R := by
  refine ((hc s).since hi.toRaised).bind fun id s₁ hid => ?_
  refine ((tends_attach hid hp).since hi.toRaised).bind fun _ s₂ h => ?_
  exact hk id s₂ (hi.later h.1) h.1.size_le h.2

/-- A reader that leaves the forest alone raises it. -/
theorem raisesAt_of_forest (hok : ∀ s a s', r s = .ok a s' → s'.forest = s.forest)
    (herror : ∀ s e s', r s = .error e s' → s'.forest = s.forest) (s : Cursor) :
    RaisesAt r s := by
  refine ⟨fun a s' ha => ?_, fun e s' he => ?_⟩
  · rw [hok s a s' ha]
    exact .refl
  · rw [herror s e s' he]
    exact .refl

/-! ### Steps -/

theorem raisesAt_expect {lexemes : List Lexeme} : ∀ s, RaisesAt (expect lexemes) s := by
  refine raisesAt_of_forest (fun s a s' h => ?_) (fun s e s' h => ?_)
  · obtain ⟨rest, -, -, rfl⟩ := expect_eq_ok_iff.mp h
    rfl
  · rw [expect] at h
    split at h
    · split at h <;> cases h
      rfl
    · cases h
      rfl

theorem raisesAt_accept {lexemes : List Lexeme} : ∀ s, RaisesAt (accept lexemes) s := by
  refine raisesAt_of_forest (fun s a s' h => ?_) (fun s e s' h => ?_)
  · rcases accept_eq_ok_iff.mp h with ⟨t, rest, -, -, -, rfl⟩ | ⟨-, -, rfl⟩ <;> rfl
  · rw [accept] at h
    split at h
    · split at h <;> cases h
    · cases h

theorem raisesAt_next {wanted : List Lexeme} : ∀ s, RaisesAt (next wanted) s := by
  refine raisesAt_of_forest (fun s a s' h => ?_) (fun s e s' h => ?_)
  · obtain ⟨rest, -, rfl⟩ := next_eq_ok_iff.mp h
    rfl
  · rw [Reader.next] at h
    split at h <;> cases h
    rfl

theorem raisesAt_sees {lexemes : List Lexeme} : ∀ s, RaisesAt (sees lexemes) s := by
  refine raisesAt_of_forest (fun s a s' h => ?_) fun _ _ _ h => nomatch h
  obtain ⟨-, rfl⟩ := sees_eq_ok_iff.mp h
  rfl

theorem raisesAt_seesAny : ∀ s, RaisesAt seesAny s := by
  refine raisesAt_of_forest (fun s a s' h => ?_) fun _ _ _ h => nomatch h
  obtain ⟨-, rfl⟩ := seesAny_eq_ok_iff.mp h
  rfl

theorem raisesAt_acceptAnd (s : Cursor) : RaisesAt acceptAnd s :=
  (raisesAt_accept s).bind fun _ _ _ => raisesAt_pure

theorem raisesAt_optional {lexemes : List Lexeme} {act : Token → Reader Unit}
    (h : ∀ t s', s.forest.size ≤ s'.forest.size → RaisesAt (act t) s') :
    RaisesAt (optional lexemes act) s := by
  refine (raisesAt_accept s).bind fun o s' hs' => ?_
  cases o with
  | none => exact raisesAt_pure
  | some t => exact h t s' hs'

theorem sprouts_leaf {kind : NodeKind} {value : String} {position : Position} :
    Sprouts (leaf kind value position) := by
  refine fun s => ⟨fun id s' h => ?_, fun _ _ h => nomatch h⟩
  obtain ⟨rfl, rfl⟩ := leaf_eq_ok_iff.mp h
  exact Forest.sprouted_alloc

theorem sprouts_frame {kind : NodeKind} {position : Position} : Sprouts (frame kind position) :=
  sprouts_leaf

/-! ### Loops -/

theorem raisesAt_collect {item : Reader α} {more : Reader Bool}
    (hitem : ∀ s', s.forest.size ≤ s'.forest.size → RaisesAt item s')
    (hmore : ∀ s', RaisesAt more s') : RaisesAt (collect item more) s := by
  have hrounds : ∀ (rounds : List Token) (s' : Cursor), s.forest.size ≤ s'.forest.size →
      RaisesAt (collectTo item more rounds) s' := by
    intro rounds
    induction rounds with
    | nil => exact fun s' hs' => (hitem s' hs').bind fun _ _ _ => raisesAt_pure
    | cons t rounds ih =>
      intro s' hs'
      refine (hitem s' hs').bind fun first s₁ h₁ => (hmore s₁).bind fun again s₂ h₂ => ?_
      cases again with
      | false => exact raisesAt_pure
      | true => exact (ih s₂ (by omega)).bind fun _ _ _ => raisesAt_pure
  exact hrounds s.rest s (Nat.le_refl _)

theorem sprouts_chain {operand : Reader NodeId} {operators : List Lexeme}
    (h : Sprouts operand) : Sprouts (chain operand operators) := by
  have hrounds : ∀ rounds : List Token, Sprouts (chainTo operand operators rounds) := by
    intro rounds
    induction rounds with
    | nil => exact h
    | cons t rounds ih =>
      intro s
      refine (h s).bind fun left s₁ hleft => ?_
      refine (raisesAt_accept s₁).next hleft fun o s₂ hleft _ => ?_
      cases o with
      | none => exact tends_pure hleft
      | some operator =>
        refine ((ih s₂).since hleft.toRaised).bind fun right s₃ hright => ?_
        refine ⟨fun node s' hnode => ?_, fun _ _ he => nomatch he⟩
        obtain ⟨rfl, rfl⟩ := EStateM.Result.ok.inj hnode
        exact hleft.binary hright
  exact fun s => hrounds s.rest s

/-! ### Phrases -/

theorem sprouts_name {kind : NodeKind} : Sprouts (name kind) :=
  sprouts_bind raisesAt_expect fun _ => sprouts_leaf

theorem raisesAt_quoted (s : Cursor) : RaisesAt quoted s :=
  (raisesAt_expect s).bind fun _ s₁ _ => (raisesAt_expect s₁).bind fun _ s₂ _ =>
    (raisesAt_expect s₂).bind fun _ _ _ => raisesAt_pure

theorem sprouts_text : Sprouts text :=
  sprouts_bind (fun _ => raisesAt_collect (fun s _ => raisesAt_quoted s) raisesAt_sees)
    fun _ => sprouts_leaf

theorem sprouts_number : Sprouts number := sprouts_bind raisesAt_expect fun _ => sprouts_leaf

theorem sprouts_expression : Sprouts expression := sprouts_chain (sprouts_chain sprouts_number)

theorem sprouts_use : Sprouts use := by
  intro s
  refine (sprouts_name s).bind fun ingredient s₁ hi => ?_
  refine (raisesAt_expect s₁).next hi fun _ s₂ hi _ => ?_
  refine sprouts_expression.next hi hi.lt_size fun quantity s₃ hi _ _ => ?_
  exact (raisesAt_expect s₃).next hi fun _ s₄ hi _ => tends_pure hi

theorem sprouts_resizing {keyword : Token} : Sprouts (resizing keyword) := by
  intro s
  refine (sprouts_leaf s).bind fun resize s₁ hi => ?_
  exact sprouts_number.next hi hi.lt_size fun side s₂ hi _ _ => tends_pure hi

theorem sprouts_ingredient {keyword : Token} : Sprouts (ingredient keyword) := by
  intro s
  refine (sprouts_frame s).bind fun ingredient s₁ hi => ?_
  refine sprouts_name.next hi hi.lt_size fun name s₂ hi _ hname => ?_
  refine (raisesAt_expect s₂).next hi fun _ s₃ hi h₃ => ?_
  refine sprouts_text.next hi (Nat.lt_of_lt_of_le hname h₃) fun path s₄ hi _ _ => ?_
  refine (raisesAt_expect s₄).next hi fun _ s₅ hi _ => ?_
  refine RaisesAt.next (raisesAt_optional fun t s' h => sprouts_resizing.raisesAt ?_) hi
    fun _ s₆ hi _ => ?_
  · exact Nat.lt_of_lt_of_le hi.lt_size h
  · exact (raisesAt_expect s₆).next hi fun _ s₇ hi _ => tends_pure hi

theorem raisesAt_portion {name : Nat} (hname : name < s.forest.size) :
    RaisesAt (portion name) s :=
  sprouts_use.raisesAt_bind hname fun _ s₁ _ => (raisesAt_expect s₁).bind fun _ _ _ => raisesAt_pure

theorem sprouts_specialty {keyword : Token} : Sprouts (specialty keyword) := by
  intro s
  refine (sprouts_frame s).bind fun specialty s₁ hi => ?_
  refine sprouts_name.next hi hi.lt_size fun name s₂ hi _ hname => ?_
  refine (raisesAt_expect s₂).next hi fun _ s₃ hi h₃ => ?_
  have hmore : ∀ s', RaisesAt (return !(← sees [.closeBrace])) s' :=
    fun s' => (raisesAt_sees s').bind fun _ _ _ => raisesAt_pure
  refine RaisesAt.next (raisesAt_collect (fun s' h => raisesAt_portion ?_) hmore) hi
    fun _ s₄ hi _ => ?_
  · exact Nat.lt_of_lt_of_le hname (Nat.le_trans h₃ h)
  · exact (raisesAt_expect s₄).next hi fun _ s₅ hi _ => tends_pure hi

theorem sprouts_definition {keyword : Token} : Sprouts (definition keyword) := by
  intro s
  refine (sprouts_frame s).bind fun define s₁ hi => ?_
  refine (raisesAt_expect s₁).next hi fun kind s₂ hi _ => ?_
  split
  · exact sprouts_ingredient.next hi hi.lt_size fun _ _ hi _ _ => tends_pure hi
  · exact sprouts_specialty.next hi hi.lt_size fun _ _ hi _ _ => tends_pure hi

/-- A clause that lists things has them all below one node. -/
theorem sprouts_list {kind : NodeKind} {value : String} {position : Position} {more : Reader Bool}
    (hc : Sprouts c) (hmore : ∀ s, RaisesAt more s) :
    Sprouts (do let clause ← leaf kind value position
                let _ ← collect (do attach clause (← c)) more
                return clause) := by
  intro s
  refine (sprouts_leaf s).bind fun clause s₁ hi => ?_
  refine RaisesAt.next (raisesAt_collect (fun s' h => hc.raisesAt ?_) hmore) hi
    fun _ s₂ hi _ => tends_pure hi
  exact Nat.lt_of_lt_of_le hi.lt_size h

theorem sprouts_add {keyword : Token} : Sprouts (add keyword) :=
  sprouts_list sprouts_use raisesAt_acceptAnd

theorem sprouts_specialties {keyword : Token} : Sprouts (specialties keyword) :=
  sprouts_list sprouts_name raisesAt_acceptAnd

theorem sprouts_save {keyword : Token} : Sprouts (save keyword) := by
  intro s
  refine (sprouts_leaf s).bind fun clause s₁ hi => ?_
  refine (raisesAt_expect s₁).next hi fun _ s₂ hi _ => ?_
  exact sprouts_text.next hi hi.lt_size fun _ _ hi _ _ => tends_pure hi

theorem raisesAt_toppings {pizza : Nat} (hpizza : pizza < s.forest.size) :
    RaisesAt (toppings pizza) s := by
  refine (raisesAt_expect s).bind fun first s₁ h₁ => ?_
  have hpizza₁ := Nat.lt_of_lt_of_le hpizza h₁
  split
  · exact sprouts_add.raisesAt hpizza₁
  · refine sprouts_specialties.raisesAt_bind hpizza₁ fun clause s₂ h₂ => ?_
    exact raisesAt_optional fun t s₃ h₃ =>
      sprouts_add.raisesAt (Nat.lt_of_lt_of_le hpizza₁ (Nat.le_trans h₂ h₃))

theorem sprouts_pizza {keyword : Token} : Sprouts (pizza keyword) := by
  intro s
  refine (sprouts_frame s).bind fun pizza s₁ hi => ?_
  refine (raisesAt_toppings hi.lt_size).next hi fun _ s₂ hi _ => ?_
  refine RaisesAt.next (raisesAt_optional fun t s' h => sprouts_save.raisesAt ?_) hi
    fun _ s₃ hi _ => tends_pure hi
  exact Nat.lt_of_lt_of_le hi.lt_size h

theorem sprouts_make {keyword : Token} : Sprouts (make keyword) := by
  intro s
  refine (sprouts_frame s).bind fun make s₁ hi => (raisesAt_expect s₁).next hi fun t s₂ hi _ => ?_
  refine sprouts_leaf.next hi hi.lt_size fun size s₃ hi _ hsize => ?_
  refine (raisesAt_expect s₃).next hi fun word s₄ hi h₄ => ?_
  refine sprouts_pizza.next hi (Nat.lt_of_lt_of_le hsize h₄) fun body s₅ hi _ _ => ?_
  exact (raisesAt_expect s₅).next hi fun _ s₆ hi _ => tends_pure hi

theorem sprouts_inclusion {keyword : Token} : Sprouts (inclusion keyword) := by
  intro s
  refine (sprouts_leaf s).bind fun inclusion s₁ hi => ?_
  refine sprouts_text.next hi hi.lt_size fun path s₂ hi _ _ => ?_
  exact (raisesAt_expect s₂).next hi fun _ s₃ hi _ => tends_pure hi

theorem sprouts_throw {e : SyntaxError} : Sprouts (throw e) := by
  refine fun s => ⟨fun a s' ha => absurd ha Stateful.throw_ne_ok, fun e' s' he => ?_⟩
  obtain ⟨-, rfl⟩ := Stateful.throw_eq_error_iff.mp he
  exact .refl

theorem sprouts_statement : Sprouts statement := by
  refine sprouts_bind raisesAt_next fun t => ?_
  split
  · exact sprouts_inclusion
  · exact sprouts_definition
  · exact sprouts_make
  · exact sprouts_throw

/-- **A program is read into one new tree**, and what turns out to be none raises the forest. -/
theorem sprouts_program : Sprouts program := by
  have hget : ∀ s, RaisesAt (get : Reader Cursor) s := by
    refine raisesAt_of_forest (fun s a s' h => ?_) fun _ _ _ h => nomatch h
    obtain ⟨-, rfl⟩ := EStateM.Result.ok.inj h
    rfl
  exact sprouts_bind hget fun _ => sprouts_list sprouts_statement raisesAt_seesAny

end Reader

namespace Cursor

/-- **Reading a program raises the forest of the cursor**: what is handed over is raised with a
root that has sprouted, and what the cursor keeps after a failure is raised. -/
theorem raised_of_readProgram (s : Cursor) :
    (∀ f, s.readProgram.1 = .ok f → ∃ g root, s.forest.Sprouted g root ∧ f = g.setRoot root) ∧
    ∀ e, s.readProgram.1 = .error e → s.forest.Raised s.readProgram.2.forest := by
  obtain ⟨hok, herror⟩ := Reader.sprouts_program s
  rw [readProgram]
  cases hr : Reader.program s with
  | ok root s' =>
    refine ⟨fun f hf => ?_, fun _ h => nomatch h⟩
    exact ⟨s'.forest, root, hok root s' hr, (Except.ok.inj hf).symm⟩
  | error e s' => exact ⟨nofun, fun _ _ => herror e s' hr⟩

/-- **Reading a program grows the forest of the cursor**: into the forest that is handed over, or
into the one that the cursor keeps after a failure. -/
theorem grows_of_readProgram (s : Cursor) :
    (∀ f, s.readProgram.1 = .ok f → s.forest.Grows f) ∧
    ∀ e, s.readProgram.1 = .error e → s.forest.Grows s.readProgram.2.forest := by
  obtain ⟨hok, herror⟩ := raised_of_readProgram s
  refine ⟨fun f hf => ?_, fun e he => (herror e he).grows⟩
  obtain ⟨g, root, hroot, rfl⟩ := hok f hf
  exact hroot.grows.step (s := .setRoot root) hroot.lt_size

/-- **Reading a program takes permitted steps only.** -/
theorem leads_of_readProgram (s : Cursor) (hs : s.forest.InRange) :
    (∀ f, s.readProgram.1 = .ok f → s.forest.Leads f) ∧
    ∀ e, s.readProgram.1 = .error e → s.forest.Leads s.readProgram.2.forest := by
  obtain ⟨hok, herror⟩ := raised_of_readProgram s
  refine ⟨fun f hf => ?_, fun e he => (herror e he).leads hs⟩
  obtain ⟨g, root, hroot, rfl⟩ := hok f hf
  exact (hroot.leads hs).step (s := .setRoot root) hroot.lt_size

end Cursor

end PizzaLang
