import PizzaLang.Proofs.Failure
import PizzaLang.Proofs.PathEquality

/-!
# A library is a map of paths

The units of a library are put in one after the other, each under a path. They are kept as they were
written, and looked up by equality of paths, so a unit that is put in takes the place of all earlier
ones under other spellings of its path: what counts at a path is the last insertion at an equal one
(`PizzaLang.Library.text?_ofList_eq_some_iff`).

A relative reference is looked for next to the unit that makes it, and then as it stands. The path
that is found is one of these two, and not the one that was put in; the text is found under either,
since they are equal (`PizzaLang.Library.locate_eq_ok_iff`).

So a library is a reliable supply of units: what is located can be read, and what is not located is
not there (`PizzaLang.Sources.Reliable`). With such a supply, no compilation at any depth fails
because a unit cannot be read. All this is in `PizzaLang.Library.map_of_paths`.
-/

namespace PizzaLang

namespace Library

variable {inserts : List (Path × String)} {l : Library} {p id reference : Path}
  {origin : Option Path} {text : String}

/-! ### The last insertion counts -/

/-- **A path is taken** by one of some insertions. -/
def Taken (inserts : List (Path × String)) (p : Path) : Prop := ∃ e ∈ inserts, e.1.Same p

/-- **The last insertion at a path** has this text. -/
def LastAt (inserts : List (Path × String)) (p : Path) (text : String) : Prop :=
  ∃ before q after, inserts = before ++ (q, text) :: after ∧ q.Same p ∧
    ∀ e ∈ after, ¬e.1.Same p

theorem units_foldl_insert (l : Library) (inserts : List (Path × String)) :
    (inserts.foldl (fun l (path, text) => l.insert path text) l).units =
      inserts.reverse ++ l.units := by
  induction inserts generalizing l with
  | nil => rfl
  | cons e inserts ih =>
    rw [List.foldl_cons, ih, List.reverse_cons, List.append_assoc]
    rfl

theorem units_ofList : (ofList inserts).units = inserts.reverse := by
  rw [ofList, units_foldl_insert, empty, List.append_nil]

/-- **The text at a path is that of the last insertion** at an equal one. -/
theorem text?_ofList_eq_some_iff :
    (ofList inserts).text? p = some text ↔ LastAt inserts p text := by
  rw [text?, units_ofList, Option.map_eq_some_iff]
  constructor
  · rintro ⟨⟨q, text⟩, hfound, rfl⟩
    obtain ⟨hsame, after, before, hsplit, hafter⟩ := List.find?_eq_some_iff_append.mp hfound
    refine ⟨before.reverse, q, after.reverse, ?_, of_decide_eq_true hsame, fun e he => ?_⟩
    · rw [← List.reverse_reverse inserts, hsplit]
      simp
    · simpa using hafter e (List.mem_reverse.mp he)
  · rintro ⟨before, q, after, rfl, hsame, hafter⟩
    refine ⟨(q, text), List.find?_eq_some_iff_append.mpr ⟨decide_eq_true hsame, after.reverse,
      before.reverse, by simp, fun e he => ?_⟩, rfl⟩
    simpa using hafter e (List.mem_reverse.mp he)

theorem isSome_text?_ofList_iff : ((ofList inserts).text? p).isSome ↔ Taken inserts p := by
  rw [text?, units_ofList, Option.isSome_map, List.find?_isSome]
  simp [Taken]

/-! ### Where a reference leads -/

/-- **A path next to a unit**: the reference, which is relative, read from the directory of the unit
that makes it. -/
def NextTo (reference : Path) (origin : Option Path) (p : Path) : Prop :=
  reference.isAbsolute = false ∧
    ∃ unit dir, origin = some unit ∧ unit.parent = some dir ∧ p = dir.join reference

/-- There is one path next to a unit. -/
theorem NextTo.unique {q : Path} (hp : NextTo reference origin p) (hq : NextTo reference origin q) :
    p = q := by
  obtain ⟨-, unit, dir, rfl, hparent, rfl⟩ := hp
  obtain ⟨-, unit', dir', hunit, hparent', rfl⟩ := hq
  obtain rfl := Option.some.inj hunit
  obtain rfl := Option.some.inj (hparent.symm.trans hparent')
  rfl

theorem candidates_cases (reference : Path) (origin : Option Path) :
    (∃ p, NextTo reference origin p ∧ candidates reference origin = [p, reference]) ∨
      (∀ p, ¬NextTo reference origin p) ∧ candidates reference origin = [reference] := by
  rw [candidates]
  split
  · next dir hdir =>
    obtain ⟨unit, hunit, hparent⟩ := Option.bind_eq_some_iff.mp hdir
    obtain ⟨hrelative, rfl⟩ : reference.isAbsolute = false ∧ origin = some unit := by
      simpa using hunit
    exact Or.inl ⟨dir.join reference, ⟨hrelative, unit, dir, rfl, hparent, rfl⟩, rfl⟩
  · next hnone =>
    refine Or.inr ⟨?_, rfl⟩
    rintro p ⟨hrelative, unit, dir, rfl, hparent, rfl⟩
    simp [hrelative, hparent] at hnone

/-- **Where a reference leads**: to the path next to the unit that makes it, if that is in the
library; otherwise to itself, if it is there; and otherwise nowhere. -/
theorem locate_cases (l : Library) (reference : Path) (origin : Option Path) :
    (∃ p, NextTo reference origin p ∧ (l.text? p).isSome ∧ l.locate reference origin = .ok p) ∨
      (∀ p, NextTo reference origin p → ¬(l.text? p).isSome) ∧
        ((l.text? reference).isSome ∧ l.locate reference origin = .ok reference ∨
          ¬(l.text? reference).isSome ∧ l.locate reference origin = .error .notFound) := by
  -- what is left once the path next to the unit is out of the question
  have hitself : (l.text? reference).isSome ∧
        [reference].find? (fun path => (l.text? path).isSome) = some reference ∨
      ¬(l.text? reference).isSome ∧
        [reference].find? (fun path => (l.text? path).isSome) = none := by
    by_cases hreference : (l.text? reference).isSome <;> simp [hreference]
  rw [locate]
  rcases candidates_cases reference origin with ⟨p, hp, heq⟩ | ⟨hnone, heq⟩
  · rw [heq, List.find?_cons]
    by_cases hsome : (l.text? p).isSome
    · exact Or.inl ⟨p, hp, hsome, by rw [hsome]⟩
    · refine Or.inr ⟨fun q hq => hp.unique hq ▸ hsome, ?_⟩
      rw [Bool.eq_false_iff.mpr hsome]
      rcases hitself with ⟨h, hfind⟩ | ⟨h, hfind⟩ <;> simp [h, hfind]
  · refine Or.inr ⟨fun q hq => absurd hq (hnone q), ?_⟩
    rw [heq]
    rcases hitself with ⟨h, hfind⟩ | ⟨h, hfind⟩ <;> simp [h, hfind]

theorem locate_eq_ok_iff : l.locate reference origin = .ok id ↔
    (NextTo reference origin id ∧ (l.text? id).isSome) ∨
      (∀ p, NextTo reference origin p → ¬(l.text? p).isSome) ∧ id = reference ∧
        (l.text? id).isSome := by
  rcases l.locate_cases reference origin with
    ⟨p, hp, hsome, heq⟩ | ⟨hnone, ⟨hsome, heq⟩ | ⟨hmissing, heq⟩⟩ <;> rw [heq]
  · constructor
    · intro hid
      obtain rfl := Except.ok.inj hid
      exact Or.inl ⟨hp, hsome⟩
    · rintro (⟨hid, -⟩ | ⟨hnone, -, -⟩)
      · rw [hp.unique hid]
      · exact absurd hsome (hnone p hp)
  · constructor
    · intro hid
      obtain rfl := Except.ok.inj hid
      exact Or.inr ⟨hnone, rfl, hsome⟩
    · rintro (⟨hid, hsome'⟩ | ⟨-, rfl, -⟩)
      · exact absurd hsome' (hnone id hid)
      · rfl
  · refine iff_of_false (by simp) ?_
    rintro (⟨hid, hsome⟩ | ⟨-, rfl, hsome⟩)
    · exact hnone id hid hsome
    · exact hmissing hsome

end Library

/-! ### Reliable supplies -/

/-- **A supply of units is reliable**: what is located can be read, and what is not located is not
there. -/
structure Sources.Reliable (sources : Sources) : Prop where
  missing : ∀ {reference : Path} {origin : Option Path} {e : LookupError},
    sources.locate reference origin = .error e → e = .notFound
  readable : ∀ {reference id : Path} {origin : Option Path},
    sources.locate reference origin = .ok id → ∃ text, sources.load id = .ok text

/-- **A library is reliable.** -/
theorem Library.reliable (l : Library) : l.sources.Reliable where
  missing := by
    intro reference origin e h
    change l.locate reference origin = .error e at h
    rcases l.locate_cases reference origin with ⟨p, -, -, heq⟩ | ⟨-, ⟨-, heq⟩ | ⟨-, heq⟩⟩
    · cases heq.symm.trans h
    · cases heq.symm.trans h
    · exact (Except.error.inj (heq.symm.trans h)).symm
  readable := by
    intro reference id origin h
    change l.locate reference origin = .ok id at h
    have hsome : (l.text? id).isSome := by
      rcases locate_eq_ok_iff.mp h with ⟨-, hsome⟩ | ⟨-, -, hsome⟩ <;> exact hsome
    obtain ⟨text, htext⟩ := Option.isSome_iff_exists.mp hsome
    exact ⟨text, load_eq_ok_iff.mpr htext⟩

/-- A unit has been located and cannot be read. -/
def CompileError.IsUnread : CompileError → Prop
  | .resource (.sourceUnreadable _ _) => True
  | .resource (.unreachable _ .inclusion _ _) => True
  | _ => False

namespace Compiler

variable {c : Compiler} {chain : List Path} {m : Menu} {t : SyntaxTree} {e : CompileError}
  {s s' : Session}

theorem forestOf_not_unread {unit : Path} {text : String} (h : forestOf unit text = .error e) :
    ¬e.IsUnread := by
  rcases forestOf_fails h with ⟨_, rfl⟩ | ⟨_, rfl⟩ | ⟨_, rfl⟩ <;> exact id

/-- An image that cannot be read is not a unit. -/
theorem Undeclared.not_unread {unit : Path} {table : SymbolTable} {d : SyntaxTree}
    (h : c.Undeclared unit table d e) : ¬e.IsUnread := by
  cases h with
  | @unmeasured name path error =>
    rcases error with _ | reason <;> exact id
  | _ => exact id

variable (hc : c.sources.Reliable)
include hc

/-- **No statement is at fault for a unit that cannot be read**, if the supply is reliable. -/
theorem Faulty.not_unread (h : c.Faulty chain m t e) : ¬e.IsUnread := by
  cases h with
  | unlocated _ _ hlocate =>
    obtain rfl := hc.missing hlocate
    exact id
  | unloaded _ _ hid hload =>
    obtain ⟨text, htext⟩ := hc.readable hid
    cases hload.symm.trans htext
  | unread _ _ hread => exact forestOf_not_unread hread
  | undeclared _ _ hundeclared => exact hundeclared.not_unread
  | _ => exact id

theorem Fails.not_unread (h : c.Fails chain m t e) : ¬e.IsUnread := by
  induction h with
  | fault hfaulty => exact hfaulty.not_unread hc
  | inside _ _ _ _ _ _ ih => exact ih

/-- **No unit is refused for one that cannot be read**, at whatever depth. -/
theorem Refused.not_unread {unit : Path} {text : String} (h : c.Refused chain unit text e) :
    ¬e.IsUnread := by
  cases h with
  | deep => exact id
  | unread hread => exact forestOf_not_unread hread
  | inside _ hfails =>
    obtain ⟨_, _, _, _, _, -, -, hfails⟩ := hfails
    exact hfails.not_unread hc

theorem compileFile_not_unread {path : Path} (h : c.compileFile path s = .error e s') :
    ¬e.IsUnread := by
  rcases Stateful.bind_eq_error_iff.mp h with hread | ⟨⟨unit, text⟩, _, -, hunit⟩
  · rcases read_fails hread with ⟨_, rfl⟩ | rfl | ⟨id, reason, hid, hload, -⟩
    · exact id
    · exact id
    · obtain ⟨text, htext⟩ := hc.readable hid
      cases hload.symm.trans htext
  · exact (compileNested_fails hunit).not_unread hc

end Compiler

/-- **A library is a map of paths.** Let units be put into a library one after the other.

* A reference leads somewhere exactly if the path next to the unit that makes it is taken by one of
  the insertions, up to path equality, or the reference itself is.
* The path next to the unit comes first; the reference stands for itself only if that is not taken.
* The text at a path is that of the last insertion at an equal path, and the path that a reference
  leads to has one.
* So nothing that is compiled with this library, from a path or from a text, fails because the unit
  at the path or an included unit, at whatever depth, cannot be read. -/
theorem Library.map_of_paths (inserts : List (Path × String)) :
    (∀ reference origin, (∃ id, (ofList inserts).locate reference origin = .ok id) ↔
      (∃ p, NextTo reference origin p ∧ Taken inserts p) ∨ Taken inserts reference) ∧
    (∀ reference origin id, (ofList inserts).locate reference origin = .ok id ↔
      (NextTo reference origin id ∧ Taken inserts id) ∨
        (∀ p, NextTo reference origin p → ¬Taken inserts p) ∧ id = reference ∧ Taken inserts id) ∧
    (∀ p text, (ofList inserts).load p = .ok text ↔ LastAt inserts p text) ∧
    (∀ reference origin id, (ofList inserts).locate reference origin = .ok id →
      ∃ text, (ofList inserts).load id = .ok text ∧ LastAt inserts id text) ∧
    ∀ (images : Images) (limit : Nat) (s s' : Session) (e : CompileError),
      ((∃ path, Compiler.compileFile ⟨(ofList inserts).sources, images, limit⟩ path s =
          .error e s') ∨
        ∃ unit text, Compiler.compileUnit ⟨(ofList inserts).sources, images, limit⟩ unit text s =
          .error e s') →
      (∀ path reason, e ≠ .resource (.sourceUnreadable path reason)) ∧
        ∀ reference reason position,
          e ≠ .resource (.unreachable reference .inclusion reason position) := by
  have hlocate : ∀ reference origin id, (ofList inserts).locate reference origin = .ok id ↔
      (NextTo reference origin id ∧ Taken inserts id) ∨
        (∀ p, NextTo reference origin p → ¬Taken inserts p) ∧ id = reference ∧
          Taken inserts id := by
    intro reference origin id
    simp only [locate_eq_ok_iff, isSome_text?_ofList_iff]
  have hload : ∀ p text, (ofList inserts).load p = .ok text ↔ LastAt inserts p text :=
    fun p text => load_eq_ok_iff.trans text?_ofList_eq_some_iff
  refine ⟨fun reference origin => ⟨?_, fun htaken => ?_⟩, hlocate, hload,
    fun reference origin id h => ?_, fun images limit s s' e h => ?_⟩
  · rintro ⟨id, h⟩
    rcases (hlocate reference origin id).mp h with ⟨hid, htaken⟩ | ⟨-, rfl, htaken⟩
    · exact Or.inl ⟨id, hid, htaken⟩
    · exact Or.inr htaken
  · by_cases hnext : ∃ p, NextTo reference origin p ∧ Taken inserts p
    · obtain ⟨p, hp⟩ := hnext
      exact ⟨p, (hlocate reference origin p).mpr (Or.inl hp)⟩
    · have hnone : ∀ p, NextTo reference origin p → ¬Taken inserts p :=
        fun p hp htaken => hnext ⟨p, hp, htaken⟩
      refine ⟨reference, (hlocate reference origin reference).mpr (Or.inr ⟨hnone, rfl, ?_⟩)⟩
      exact htaken.resolve_left hnext
  · obtain ⟨text, htext⟩ := (ofList inserts).reliable.readable h
    exact ⟨text, htext, (hload id text).mp htext⟩
  · have hread : ¬e.IsUnread := by
      rcases h with ⟨path, h⟩ | ⟨unit, text, h⟩
      · exact Compiler.compileFile_not_unread (ofList inserts).reliable h
      · exact (Compiler.compileNested_fails h).not_unread (ofList inserts).reliable
    constructor
    · rintro path reason rfl
      exact hread trivial
    · rintro reference reason position rfl
      exact hread trivial

/-- Units of which two have one path under two spellings, and one has the same name elsewhere. -/
def Library.shelf : List (Path × String) :=
  [(⟨"menus/basic.pf"⟩, "make"), (⟨"menus//./basic.pf"⟩, "include 'gone';"), (⟨"basic.pf"⟩, ""),
    (⟨"top.pf"⟩, "include 'menus/basic';")]

/-- The name is looked for next to the unit that uses it, where the second spelling counts. The unit
that is included there is not found, which is another matter than not being read. -/
theorem Library.map_of_paths_shelf :
    (ofList shelf).locate ⟨"basic.pf"⟩ (some ⟨"menus/main.pf"⟩) = .ok ⟨"menus/basic.pf"⟩ ∧
    NextTo ⟨"basic.pf"⟩ (some ⟨"menus/main.pf"⟩) ⟨"menus/basic.pf"⟩ ∧
    LastAt shelf ⟨"menus/basic.pf"⟩ "include 'gone';" ∧
    ∃ e s', Compiler.compileFile ⟨(ofList shelf).sources, (Gallery.ofList []).images, 5⟩ ⟨"top.pf"⟩
        (.ofChain []) = .error e s' ∧
      e = .resource (.invalid "gone.pf" .inclusion ⟨1, 1, ⟨"menus/basic.pf"⟩⟩) ∧
      ∀ reference reason position,
        e ≠ .resource (.unreachable reference .inclusion reason position) := by
  obtain ⟨-, hlocate, hload, -, hcompile⟩ := map_of_paths shelf
  have hfound : (ofList shelf).locate ⟨"basic.pf"⟩ (some ⟨"menus/main.pf"⟩) =
      .ok ⟨"menus/basic.pf"⟩ := by
    decide +kernel
  have htext : (ofList shelf).load ⟨"menus/basic.pf"⟩ = .ok "include 'gone';" := by decide +kernel
  refine ⟨hfound, ?_, (hload _ _).mp htext, ?_⟩
  · rcases (hlocate _ _ _).mp hfound with ⟨hnext, -⟩ | ⟨-, hitself, -⟩
    · exact hnext
    · exact absurd hitself (by decide)
  · have h : Stateful.fails (Compiler.compileFile ⟨(ofList shelf).sources,
        (Gallery.ofList []).images, 5⟩ ⟨"top.pf"⟩ (.ofChain []))
        (· = .resource (.invalid "gone.pf" .inclusion ⟨1, 1, ⟨"menus/basic.pf"⟩⟩)) = true := by
      decide +kernel
    obtain ⟨e, s', he, htest⟩ := Stateful.exists_of_fails h
    exact ⟨e, s', he, of_decide_eq_true htest, (hcompile _ _ _ _ _ (Or.inl ⟨_, he⟩)).2⟩

end PizzaLang
