import PizzaLang.Proofs.Viability

/-!
# Reading on after an error

When the reader of programs fails, the cursor stays where it is, with the tokens it has taken gone
and the nodes it has made still there, and a program may be read from there. This is the same as to
start afresh on the tokens that are left.

* Reading goes on as it starts: from cursors with the same tokens left, the same happens, whatever
  nodes there are already (`PizzaLang.Reader.agree_fresh`). Nodes only get other numbers, which no
  reader looks at.
* No node of an earlier attempt gets into a later tree, since a tree is planted in the part of the
  forest that is new (`PizzaLang.Cursor.exists_of_readProgram_ok`).
* An attempt takes a token if there is one (`PizzaLang.Reader.passes_of_program_error`), so that one
  attempt after the other comes to the end.
* Errors tell where the last token stood, and this is where a cursor that has taken none differs
  from one that has (`PizzaLang.SyntaxError.Like.eq_of_program`).

The result is `PizzaLang.resumed_as_fresh`.
-/

namespace PizzaLang

open Reader

/-! ### Starting afresh -/

/-- Cursors in one unit, the first of which has a number of nodes more. -/
def Cursor.Ahead (unit : Path) (n : Nat) (s s' : Cursor) : Prop :=
  s.unit = unit ∧ s.forest.size = s'.forest.size + n

theorem Cursor.keeps_ahead (unit : Path) (n : Nat) :
    Cursor.Keeps (id : NodeLabel → NodeLabel) (Cursor.Ahead unit n) fun _ _ => True := by
  refine ⟨fun h _ _ _ _ => h, fun {s s' _ _} h _ => ⟨trivial, h.1, ?_⟩, fun h _ _ => ⟨h.1, ?_⟩⟩
  · have hsize := h.2
    rw [Forest.size_alloc, Forest.size_alloc]
    omega
  · rw [Forest.size_attach, Forest.size_attach]
    exact h.2

/-- Equal tokens make equal nodes. -/
theorem likeness_eq : Likeness Eq (id : NodeLabel → NodeLabel) := by
  refine ⟨?_, ?_, ?_, ?_, ?_⟩
  · rintro t _ rfl
    rfl
  · rintro t _ rfl kind value
    rfl
  · rintro t _ rfl - kind
    rfl
  · rintro t _ rfl -
    rfl
  · rintro t _ ts us ⟨rfl, -⟩ h
    obtain rfl : ts = us := List.forall₂_eq_eq_eq ▸ h.imp fun _ _ => And.left
    rfl

namespace Reader

variable {s s' : Cursor} {e : SyntaxError} {t : Token} {ts : List Token}

/-- **To go on is to start afresh**: the same comes out as from the tokens that are left alone, but
for the nodes that there are already. -/
theorem agree_fresh (s : Cursor) :
    Agree Eq (Cursor.Ahead s.unit s.forest.size) (fun _ _ => True) (program s)
      (program (.ofTokens s.unit s.rest)) := by
  refine agree_program (Cursor.keeps_ahead _ _) likeness_eq ⟨?_, rfl, ?_⟩ rfl
  · rw [List.forall₂_eq_eq_eq]
    rfl
  · exact (Nat.zero_add _).symm

theorem exists_fresh_of_ok {root : NodeId} (h : program s = .ok root s') :
    ∃ root' t, program (.ofTokens s.unit s.rest) = .ok root' t ∧ s'.unit = s.unit ∧
      s'.forest.size = t.forest.size + s.forest.size := by
  have hagree := agree_fresh s
  rw [h] at hagree
  cases hfresh : program (.ofTokens s.unit s.rest) with
  | ok root' t =>
    rw [hfresh] at hagree
    exact ⟨root', t, rfl, hagree.2.kept⟩
  | error e t =>
    rw [hfresh] at hagree
    exact hagree.elim

theorem exists_fresh_of_error (h : program s = .error e s') :
    ∃ e' t, program (.ofTokens s.unit s.rest) = .error e' t ∧ SyntaxError.Like Eq e e' ∧
      s'.unit = s.unit ∧ s'.forest.size = t.forest.size + s.forest.size := by
  have hagree := agree_fresh s
  rw [h] at hagree
  cases hfresh : program (.ofTokens s.unit s.rest) with
  | ok root' t =>
    rw [hfresh] at hagree
    exact hagree.elim
  | error e' t =>
    rw [hfresh] at hagree
    exact ⟨e', t, rfl, hagree.1, hagree.2.kept⟩

/-! ### Progress -/

theorem passes_of_statement_error (h : statement s = .error e s') (hs : s.rest = t :: ts) :
    ∃ taken, s.Passes (t :: taken) s' := by
  have hstart : s.Passes [t] (s.advance t ts) := ⟨hs, rfl⟩
  suffices hlater : ∃ taken, (s.advance t ts).Passes taken s' by
    obtain ⟨taken, hpasses⟩ := hlater
    exact ⟨taken, hstart.trans hpasses⟩
  rw [statement, Stateful.bind_of_ok (next_eq_ok_iff.mpr ⟨ts, hs, rfl⟩)] at h
  cases ht : t.lexeme
  all_goals rw [ht] at h
  case kwInclude =>
    obtain ⟨taken, hpasses, -⟩ := (oneAhead_inclusion _).of_error e s' h
    exact ⟨taken, hpasses⟩
  case kwDefine =>
    obtain ⟨taken, hpasses, -⟩ := (oneAhead_definition _).of_error e s' h
    exact ⟨taken, hpasses⟩
  case kwMake =>
    obtain ⟨taken, hpasses, -⟩ := (oneAhead_make _).of_error e s' h
    exact ⟨taken, hpasses⟩
  all_goals
    obtain ⟨-, rfl⟩ := Stateful.throw_eq_error_iff.mp h
    exact ⟨[], rfl, rfl⟩

/-- **A program that fails takes the first token**, whatever is wrong. -/
theorem passes_of_program_error (hs : s.rest = t :: ts) (h : program s = .error e s') :
    ∃ taken, s.Passes (t :: taken) s' := by
  obtain ⟨root, s₁, hleaf, h⟩ : ∃ root s₁,
      leaf .program s.unit.text (.start s.unit) s = .ok root s₁ ∧
      (collect (do attach root (← statement)) seesAny >>= fun _ => pure root : Reader NodeId) s₁ =
        .error e s' := ⟨_, _, rfl, h⟩
  obtain ⟨-, rfl⟩ := leaf_eq_ok_iff.mp hleaf
  have hitem : OneAhead (do attach root (← statement)) := oneAhead_statement.attaching root
  have hconsumes := (derives_statement.attaching root).consumes
    (by simp [Derivation.Statement.tokens])
  rw [collect_eq hconsumes returns_seesAny, bind_assoc] at h
  rcases Stateful.bind_eq_error_iff.mp h with h | ⟨_, s₂, hfirst, h⟩
  · -- the first statement fails, and has taken its first token
    rcases Stateful.bind_eq_error_iff.mp h with h | ⟨_, _, -, h⟩
    · obtain ⟨taken, hpasses⟩ := passes_of_statement_error h hs
      exact ⟨taken, hpasses.rest, hpasses.last⟩
    · cases h
  · -- it has been read, and a later one fails
    obtain ⟨taken, hpasses, -⟩ := (hitem _).of_ok _ s₂ hfirst
    have hcollect := oneAhead_collect hitem oneAhead_seesAny hconsumes returns_seesAny
    obtain ⟨taken', hpasses', -⟩ := OneAheadAt.of_error
      (((oneAhead_seesAny s₂).bind fun more u _ => by
        cases more with
        | false => exact oneAhead_pure u
        | true => exact (hcollect u).bind fun _ v _ => oneAhead_pure v).bind
          fun _ v _ => oneAhead_pure v) e s' h
    have hlt := hconsumes _ _ s₂ hfirst
    have hfront : t :: ts = taken ++ s₂.rest := hs.symm.trans hpasses.rest
    cases taken with
    | nil =>
      rw [hpasses.rest, List.nil_append] at hlt
      exact absurd hlt (Nat.lt_irrefl _)
    | cons t' taken =>
      obtain ⟨rfl, -⟩ := List.cons.inj hfront
      have hall := hpasses.trans hpasses'
      exact ⟨taken ++ taken', hall.rest, hall.last⟩

end Reader

/-! ### One attempt -/

namespace Cursor

variable {s s' : Cursor} {e : SyntaxError} {f : Forest}

theorem readProgram_eq_ok_iff :
    s.readProgram = (.ok f, s') ↔ ∃ root t, program s = .ok root t ∧
      f = t.forest.setRoot root ∧ s' = { t with forest := .empty } := by
  rw [readProgram]
  cases program s with
  | ok root t => simp [eq_comm]
  | error e t => simp

theorem readProgram_eq_error_iff : s.readProgram = (.error e, s') ↔ program s = .error e s' := by
  rw [readProgram]
  cases program s with
  | ok root t => simp
  | error e t => simp

end Cursor

/-- Errors of one sort, about the same tokens, are the same if there are any tokens: they can differ
only in where the last token stands, and it is the same token. -/
theorem SyntaxError.Like.eq_of_program {s s' t t' : Cursor} {e e' : SyntaxError} (h : Like Eq e e')
    (he : program s = .error e s') (he' : program t = .error e' t') (hrest : s.rest = t.rest)
    (hne : s.rest ≠ []) : e = e' := by
  cases h with
  | expected htoken => rw [htoken]
  | noStatement htoken => rw [htoken]
  | ended =>
    obtain ⟨taken, hpasses, ⟨hend, rfl⟩, -⟩ := (oneAhead_program s).of_error _ s' he
    obtain ⟨taken', hpasses', ⟨hend', rfl⟩, -⟩ := (oneAhead_program t).of_error _ t' he'
    obtain rfl : taken = s.rest := by rw [hpasses.rest, hend, List.append_nil]
    obtain rfl : taken' = t.rest := by rw [hpasses'.rest, hend', List.append_nil]
    obtain ⟨last, hlast⟩ := Option.ne_none_iff_exists'.mp (List.getLast?_eq_none_iff.not.mpr hne)
    rw [hpasses.last, hpasses'.last, Position.past_eq, Position.past_eq, ← hrest, hlast]
    rfl

namespace Cursor

variable {s s' : Cursor} {e : SyntaxError} {f : Forest}

/-- **An attempt that succeeds** makes the tree that is made afresh, in a forest that is larger by
the nodes that were there. All tokens are gone, and the next attempt finds no nodes. -/
theorem exists_of_readProgram_ok (h : s.readProgram = (.ok f, s')) :
    ∃ g tree, parse s.unit s.rest = .ok g ∧ f.tree? = some tree ∧ g.tree? = some tree ∧
      f.size = g.size + s.forest.size ∧ s'.unit = s.unit ∧ s.Passes s.rest s' ∧
      s'.forest.size = 0 := by
  obtain ⟨root, t, hprogram, rfl, rfl⟩ := readProgram_eq_ok_iff.mp h
  obtain ⟨⟨d, hd⟩, hrest⟩ := after_program rfl hprogram
  rw [hrest, List.append_nil] at hd
  -- both trees are that of the one derivation of the tokens
  obtain ⟨root', t', hruns, f', ht', hplanted⟩ := runs_program d (s := s) ⟨hd, rfl⟩
  obtain ⟨rfl, rfl⟩ := EStateM.Result.ok.inj (hprogram.symm.trans hruns)
  obtain ⟨g, hg, htree⟩ := parse_tokens s.unit d
  obtain ⟨taken, hpasses, -⟩ := (oneAhead_program s).of_ok root t hprogram
  obtain rfl : taken = s.rest := by rw [hpasses.rest, hrest, List.append_nil]
  obtain ⟨root', t', hfresh, hunit, hsize⟩ := exists_fresh_of_ok hprogram
  have hparse : parse s.unit s.rest = .ok (t'.forest.setRoot root') := by
    rw [parse, readProgram, hfresh]
  obtain rfl := Except.ok.inj (hparse.symm.trans (hd ▸ hg))
  refine ⟨_, d.tree s.unit, hparse, ?_, htree, hsize, hunit, ⟨hpasses.rest, hpasses.last⟩, rfl⟩
  rw [ht'.forest]
  exact hplanted.tree

/-- **An attempt that fails** does so with the error that comes afresh, if there are any tokens, and
takes at least one of them. The nodes that it leaves are as many as are left afresh. -/
theorem exists_of_readProgram_error (h : s.readProgram = (.error e, s')) :
    ∃ e', parse s.unit s.rest = .error e' ∧ (s.rest ≠ [] → e = e') ∧ s'.unit = s.unit ∧
      s'.forest.size = (ofTokens s.unit s.rest).readProgram.2.forest.size + s.forest.size ∧
      ∃ taken, s.Passes taken s' ∧ (s.rest ≠ [] → taken ≠ []) := by
  have hprogram := readProgram_eq_error_iff.mp h
  obtain ⟨e', t, hfresh, hlike, hunit, hsize⟩ := exists_fresh_of_error hprogram
  have hread : (ofTokens s.unit s.rest).readProgram = (.error e', t) :=
    readProgram_eq_error_iff.mpr hfresh
  refine ⟨e', ?_, hlike.eq_of_program hprogram hfresh rfl, hunit, ?_, ?_⟩
  · rw [parse, hread]
  · rw [hread]
    exact hsize
  · cases hs : s.rest with
    | nil =>
      obtain ⟨taken, hpasses, -⟩ := (oneAhead_program s).of_error e s' hprogram
      exact ⟨taken, hpasses, fun hne => absurd rfl hne⟩
    | cons first others =>
      obtain ⟨taken, hpasses⟩ := passes_of_program_error hs hprogram
      exact ⟨first :: taken, hpasses, fun _ => List.cons_ne_nil _ _⟩

/-- Without tokens, a statement is missing behind the last one. -/
theorem readProgram_of_nil (h : s.rest = []) :
    s.readProgram.1 = .error (.ended [.kwInclude, .kwDefine, .kwMake] s.last) := by
  rcases s with ⟨unit, rest, last, forest⟩
  obtain rfl : rest = [] := h
  rfl

end Cursor

/-! ### One attempt after the other -/

section Attempts

variable (unit : Path) (tokens : List Token)

/-- The cursor after a number of attempts to read a program. -/
def cursorAfter : Nat → Cursor
  | 0 => .ofTokens unit tokens
  | attempts + 1 => (cursorAfter attempts).readProgram.2

/-- The outcome of an attempt, counted from zero. -/
def attempt (j : Nat) : Except SyntaxError Forest := (cursorAfter unit tokens j).readProgram.1

/-- How many tokens are gone when an attempt starts. -/
def startOf (j : Nat) : Nat := tokens.length - (cursorAfter unit tokens j).rest.length

/-- **The nodes left over** by the attempts that have failed since the last success: those that are
left where each of them is made afresh. -/
def leftover : Nat → Nat
  | 0 => 0
  | j + 1 =>
    match attempt unit tokens j with
    | .ok _ => 0
    | .error _ =>
      (Cursor.ofTokens unit (tokens.drop (startOf unit tokens j))).readProgram.2.forest.size +
        leftover j

variable {unit tokens} {j : Nat}

theorem startOf_of_passes {taken : List Token}
    (h : (Cursor.ofTokens unit tokens).Passes taken (cursorAfter unit tokens j)) :
    startOf unit tokens j = taken.length ∧
      (cursorAfter unit tokens j).rest = tokens.drop taken.length := by
  have htokens : tokens = taken ++ (cursorAfter unit tokens j).rest := h.rest
  have hlength := congrArg List.length htokens
  rw [List.length_append] at hlength
  refine ⟨by rw [startOf]; omega, ?_⟩
  conv_rhs => rw [htokens]
  exact List.drop_left.symm

/-- An attempt starts where the one before it has stopped. -/
theorem startOf_succ {taken taken' : List Token}
    (h : (Cursor.ofTokens unit tokens).Passes taken (cursorAfter unit tokens j))
    (h' : (cursorAfter unit tokens j).Passes taken' (cursorAfter unit tokens (j + 1))) :
    startOf unit tokens (j + 1) = startOf unit tokens j + taken'.length := by
  rw [(startOf_of_passes (h.trans h')).1, (startOf_of_passes h).1, List.length_append]

/-- Where an attempt without tokens misses one. -/
theorem last_of_passes {taken : List Token}
    (h : (Cursor.ofTokens unit tokens).Passes taken (cursorAfter unit tokens j))
    (hrest : (cursorAfter unit tokens j).rest = []) :
    (cursorAfter unit tokens j).last = (tokens.getLast?.map (·.position)).getD (.start unit) := by
  obtain rfl : tokens = taken := by
    have htokens : tokens = taken ++ (cursorAfter unit tokens j).rest := h.rest
    rwa [hrest, List.append_nil] at htokens
  exact h.last.trans (Position.past_eq _ _)

/-- **What holds before every attempt**: some of the tokens have been taken, and the nodes are those
that are left over. -/
theorem invariant_cursorAfter (unit : Path) (tokens : List Token) (j : Nat) :
    (cursorAfter unit tokens j).unit = unit ∧
    (∃ taken, (Cursor.ofTokens unit tokens).Passes taken (cursorAfter unit tokens j)) ∧
    (cursorAfter unit tokens j).forest.size = leftover unit tokens j := by
  induction j with
  | zero => exact ⟨rfl, ⟨[], rfl, rfl⟩, rfl⟩
  | succ j ih =>
    obtain ⟨hunit, ⟨taken, hpasses⟩, hsize⟩ := ih
    obtain ⟨hstart, hrest⟩ := startOf_of_passes hpasses
    rw [leftover, attempt, cursorAfter]
    rcases hread : (cursorAfter unit tokens j).readProgram with ⟨e | f, s'⟩
    · obtain ⟨e', -, -, hunit', hsize', taken', hpasses', -⟩ :=
        Cursor.exists_of_readProgram_error hread
      refine ⟨hunit'.trans hunit, ⟨_, hpasses.trans hpasses'⟩, ?_⟩
      rw [hunit, hrest, ← hstart, hsize] at hsize'
      exact hsize'
    · obtain ⟨g, tree, -, -, -, -, hunit', hpasses', hsize'⟩ :=
        Cursor.exists_of_readProgram_ok hread
      exact ⟨hunit'.trans hunit, ⟨_, hpasses.trans hpasses'⟩, hsize'⟩

end Attempts

/-- **Reading on is starting afresh.** Let any number of attempts have been made to read a program
from the tokens of a unit, one after the other.

* The tokens that are left are those behind the ones taken, and the nodes that are there are those
  left over from the failures since the last success.
* If there are tokens left, the next attempt takes some of them, and all of them if it succeeds.
* It succeeds exactly if a fresh one on the tokens that are left does, and then with the same tree,
  in a forest that is larger by the nodes left over.
* If it fails, then with the same error as the fresh one. Only where no token is left do the errors
  differ: a statement is missing behind the last of all tokens, and for the fresh one at the start
  of the unit. -/
theorem resumed_as_fresh (unit : Path) (tokens : List Token) (j : Nat) :
    (cursorAfter unit tokens j).rest = tokens.drop (startOf unit tokens j) ∧
    (cursorAfter unit tokens j).forest.size = leftover unit tokens j ∧
    (startOf unit tokens j < tokens.length →
      startOf unit tokens j < startOf unit tokens (j + 1)) ∧
    ((∃ f, attempt unit tokens j = .ok f) ↔
      ∃ g, parse unit (tokens.drop (startOf unit tokens j)) = .ok g) ∧
    (∀ f, attempt unit tokens j = .ok f → startOf unit tokens (j + 1) = tokens.length ∧
      ∃ g tree, parse unit (tokens.drop (startOf unit tokens j)) = .ok g ∧
        f.tree? = some tree ∧ g.tree? = some tree ∧ f.size = g.size + leftover unit tokens j) ∧
    ∀ e, attempt unit tokens j = .error e →
      (startOf unit tokens j < tokens.length →
        parse unit (tokens.drop (startOf unit tokens j)) = .error e) ∧
      (startOf unit tokens j = tokens.length →
        e = .ended [.kwInclude, .kwDefine, .kwMake]
          ((tokens.getLast?.map (·.position)).getD (.start unit)) ∧
        parse unit (tokens.drop (startOf unit tokens j)) =
          .error (.ended [.kwInclude, .kwDefine, .kwMake] (.start unit))) := by
  obtain ⟨hunit, ⟨taken, hpasses⟩, hsize⟩ := invariant_cursorAfter unit tokens j
  obtain ⟨hstart, hrest⟩ := startOf_of_passes hpasses
  rw [← hstart] at hrest
  have hne : startOf unit tokens j < tokens.length → (cursorAfter unit tokens j).rest ≠ [] := by
    rw [hrest, Ne, List.drop_eq_nil_iff]
    omega
  refine ⟨hrest, hsize, ?_⟩
  rw [attempt, ← hrest]
  rcases hread : (cursorAfter unit tokens j).readProgram with ⟨e | f, s'⟩
  · obtain ⟨e', hfresh, heq, -, -, taken', hpasses', htakes⟩ :=
      Cursor.exists_of_readProgram_error hread
    have hnext : cursorAfter unit tokens (j + 1) = s' := congrArg Prod.snd hread
    have hmoves := startOf_succ hpasses (hnext ▸ hpasses')
    rw [hunit] at hfresh
    refine ⟨fun hlt => ?_, ?_, by simp, ?_⟩
    · have hpos := List.length_pos_iff.mpr (htakes (hne hlt))
      omega
    · rw [hfresh]
      exact iff_of_false (by simp) (by simp)
    · rintro _ ⟨⟩
      refine ⟨fun hlt => ?_, fun hend => ?_⟩
      · rw [hfresh, heq (hne hlt)]
      · have hnil : (cursorAfter unit tokens j).rest = [] := by
          rw [hrest, hend, List.drop_length]
        have herror := Cursor.readProgram_of_nil hnil
        rw [hread, last_of_passes hpasses hnil] at herror
        refine ⟨Except.error.inj herror, ?_⟩
        rw [hnil]
        rfl
  · obtain ⟨g, tree, hfresh, htree, htree', hsize', -, hpasses', -⟩ :=
      Cursor.exists_of_readProgram_ok hread
    have hnext : cursorAfter unit tokens (j + 1) = s' := congrArg Prod.snd hread
    have hmoves := startOf_succ hpasses (hnext ▸ hpasses')
    rw [hrest, List.length_drop] at hmoves
    rw [hunit] at hfresh
    refine ⟨fun hlt => by omega, ?_, ?_, by simp⟩
    · exact iff_of_true ⟨f, rfl⟩ ⟨g, hfresh⟩
    · rintro _ ⟨⟩
      refine ⟨?_, g, tree, hfresh, htree, htree', hsize ▸ hsize'⟩
      have hle : startOf unit tokens j ≤ tokens.length := Nat.sub_le _ _
      omega

/-- A stray semicolon, an order that breaks off and an inclusion. -/
def stumbling : List Token :=
  [.semicolon, .kwMake, .kwInclude, .quote, .text, .quote, .semicolon].zipIdx.map
    fun p => ⟨p.1, "x", ⟨1, p.2 + 1, ⟨"main.pf"⟩⟩⟩

/-- Two attempts fail and leave three nodes, the third one reads the inclusion, and the fourth finds
no token behind the last one. -/
theorem resumed_as_fresh_stumbling :
    (∃ e, attempt ⟨"main.pf"⟩ stumbling 1 = .error e ∧
      parse ⟨"main.pf"⟩ (stumbling.drop 1) = .error e) ∧
    (∃ f g tree, attempt ⟨"main.pf"⟩ stumbling 2 = .ok f ∧
      parse ⟨"main.pf"⟩ (stumbling.drop 2) = .ok g ∧ f.tree? = some tree ∧
      g.tree? = some tree ∧ f.size = g.size + 3) ∧
    attempt ⟨"main.pf"⟩ stumbling 3 =
      .error (.ended [.kwInclude, .kwDefine, .kwMake] ⟨1, 7, ⟨"main.pf"⟩⟩) := by
  have hstart : (List.range 4).map (startOf ⟨"main.pf"⟩ stumbling) = [0, 1, 2, 7] := by
    decide +kernel
  have hleft : leftover ⟨"main.pf"⟩ stumbling 2 = 3 := by decide +kernel
  have houtcome : (List.range 4).map (fun j => (attempt ⟨"main.pf"⟩ stumbling j).toBool) =
      [false, false, true, false] := by decide +kernel
  simp only [List.range, List.range.loop, List.map_cons, List.map_nil, List.cons.injEq]
    at hstart houtcome
  obtain ⟨-, hstart₁, hstart₂, hstart₃, -⟩ := hstart
  obtain ⟨-, hfails₁, hreads₂, hfails₃, -⟩ := houtcome
  have hfails : ∀ j, (attempt ⟨"main.pf"⟩ stumbling j).toBool = false →
      ∃ e, attempt ⟨"main.pf"⟩ stumbling j = .error e := by
    intro j hj
    cases h : attempt ⟨"main.pf"⟩ stumbling j with
    | ok f =>
      rw [h] at hj
      cases hj
    | error e => exact ⟨e, rfl⟩
  refine ⟨?_, ?_, ?_⟩
  · obtain ⟨-, -, -, -, -, herror⟩ := resumed_as_fresh ⟨"main.pf"⟩ stumbling 1
    obtain ⟨e, he⟩ := hfails 1 hfails₁
    rw [hstart₁] at herror
    exact ⟨e, he, (herror e he).1 (by decide)⟩
  · obtain ⟨-, -, -, -, hok, -⟩ := resumed_as_fresh ⟨"main.pf"⟩ stumbling 2
    cases h : attempt ⟨"main.pf"⟩ stumbling 2 with
    | ok f =>
      obtain ⟨-, g, tree, hg, htree, htree', hsize⟩ := hok f h
      rw [hstart₂] at hg
      rw [hleft] at hsize
      exact ⟨f, g, tree, rfl, hg, htree, htree', hsize⟩
    | error e =>
      rw [h] at hreads₂
      cases hreads₂
  · obtain ⟨-, -, -, -, -, herror⟩ := resumed_as_fresh ⟨"main.pf"⟩ stumbling 3
    obtain ⟨e, he⟩ := hfails 3 hfails₃
    rw [hstart₃] at herror
    rw [he, ((herror e he).2 rfl).1]
    rfl

end PizzaLang
