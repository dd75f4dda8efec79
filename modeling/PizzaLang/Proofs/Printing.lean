import PizzaLang.Proofs.Outline
import PizzaLang.Proofs.Placement

/-!
# The printed tree determines the tree

A tree is printed a line for each node, indented by depth, and nothing is escaped: values may hold
colons, brackets, tabs and dashes as they like. Still the tree can be read off.

* A line determines the depth and the label (`PizzaLang.SyntaxTree.renderLabel_injective`). What
  stands before the value is of a fixed form, and each part of it ends at a character that it does
  not contain.
* The lines are found in the text, because no value contains a line feed
  (`PizzaLang.SyntaxTree.entries_eq`): the tokens of a text are parts of its lines, and lower case
  brings in none.
* Depths and labels determine the tree (`PizzaLang.Tree.outlineAll_injective`).

The line of the root is the exception. It shows the name of the unit, which may contain anything,
but it is the same for all texts of a unit. The result is `PizzaLang.render_eq_render_iff`.
-/

namespace PizzaLang

/-! ### Characters that end something -/

/-- **What ends at the first of its kind is found**, whatever follows. -/
theorem append_cons_inj {α : Type} {x : α} {as bs cs ds : List α} (has : x ∉ as) (hbs : x ∉ bs)
    (h : as ++ x :: cs = bs ++ x :: ds) : as = bs ∧ cs = ds := by
  induction as generalizing bs with
  | nil =>
    cases bs with
    | nil => exact ⟨rfl, (List.cons.inj h).2⟩
    | cons b bs => exact absurd ((List.cons.inj h).1 ▸ List.mem_cons_self) hbs
  | cons a as ih =>
    cases bs with
    | nil => exact absurd ((List.cons.inj h).1 ▸ List.mem_cons_self) has
    | cons b bs =>
      obtain ⟨rfl, htail⟩ := List.cons.inj h
      obtain ⟨rfl, rfl⟩ :=
        ih (List.not_mem_of_not_mem_cons has) (List.not_mem_of_not_mem_cons hbs) htail
      exact ⟨rfl, rfl⟩

theorem not_mem_toDigits {c : Char} (hc : c.isDigit = false) (n : Nat) : c ∉ Nat.toDigits 10 n := by
  intro hmem
  rw [Nat.isDigit_of_mem_toDigits (by decide) (by decide) hmem] at hc
  cases hc

theorem toDigits_injective {m n : Nat} (h : Nat.toDigits 10 m = Nat.toDigits 10 n) : m = n := by
  have hvalue := congrArg (fun digits => Nat.ofDigitChars 10 digits 0) h
  simpa only [Nat.ofDigitChars_ten_toDigits] using hvalue

namespace Text

/-! ### Line feeds -/

theorem dropReturn_subset (line : List Char) : dropReturn line ⊆ line := by
  unfold dropReturn
  split
  · exact List.subset_cons_self _ _
  · exact List.Subset.refl _

theorem not_mem_linesFrom {line rest l : List Char} (hline : '\n' ∉ line)
    (hl : l ∈ linesFrom line rest) : '\n' ∉ l := by
  fun_induction linesFrom line rest with
  | case1 line hempty => cases hl
  | case2 line hne =>
    obtain rfl := List.mem_singleton.mp hl
    simpa using hline
  | case3 line rest ih =>
    rcases List.mem_cons.mp hl with rfl | hl
    · exact fun hmem => hline (dropReturn_subset line (List.mem_reverse.mp hmem))
    · exact ih List.not_mem_nil hl
  | case4 line c rest hc ih =>
    refine ih (fun hmem => ?_) hl
    rcases List.mem_cons.mp hmem with rfl | hmem
    · exact hc rfl
    · exact hline hmem

/-- **A line contains no line feed.** -/
theorem not_mem_lines {line text : String} (h : line ∈ lines text) : '\n' ∉ line.toList := by
  obtain ⟨l, hl, rfl⟩ := List.mem_map.mp h
  rw [String.toList_ofList]
  exact not_mem_linesFrom List.not_mem_nil hl

/-- All small forms lie behind the line feed. -/
theorem le_of_mem_capitalRuns : ∀ r ∈ capitalRuns, 11 ≤ r.first + r.shift := by decide +kernel

theorem lowerChar_ne_newline {c : Char} (hc : c ≠ '\n') : lowerChar c ≠ '\n' := by
  rw [lowerChar]
  split
  · next hlt =>
    have hsmall : ∀ n < 128, (Char.ofNat n).toLower = '\n' → Char.ofNat n = '\n' := by decide
    rw [← Char.ofNat_toNat c] at hc ⊢
    exact fun h => hc (hsmall c.toNat hlt h)
  · split
    · next r hr =>
      intro h
      have hmem := le_of_mem_capitalRuns r (List.mem_of_find?_eq_some hr)
      have hcovers := List.find?_some hr
      rw [CaseRun.covers, Bool.and_eq_true, Bool.and_eq_true, decide_eq_true_eq] at hcovers
      by_cases hvalid : (c.toNat + r.shift).toNat.isValidChar
      · rw [Char.ofNat, dif_pos hvalid] at h
        have hten : (c.toNat + r.shift).toNat = 10 := congrArg Char.toNat h
        omega
      · rw [Char.ofNat, dif_neg hvalid] at h
        cases h
    · exact hc

/-- **Lower case brings in no line feed.** -/
theorem not_mem_lower {s : String} (h : '\n' ∉ s.toList) : '\n' ∉ (lower s).toList := by
  have hafter : ∀ before cs : List Char, '\n' ∉ cs → '\n' ∉ lowerAfter before cs := by
    intro before cs
    induction cs generalizing before with
    | nil => exact fun h => h
    | cons c cs ih =>
      intro h
      rw [List.mem_cons, not_or] at h
      obtain ⟨hc, hcs⟩ := h
      rw [lowerAfter, List.mem_append, not_or]
      refine ⟨?_, ih _ hcs⟩
      split
      · split <;> decide
      · split
        · decide
        · exact fun hmem => lowerChar_ne_newline (Ne.symm hc) (List.mem_singleton.mp hmem).symm
  rw [lower, String.toList_ofList]
  exact hafter [] s.toList h

end Text

namespace NodeKind

theorem ofLabel?_label (k : NodeKind) : ofLabel? k.label = some k := by cases k <;> decide

theorem label_injective {k k' : NodeKind} (h : k.label = k'.label) : k = k' :=
  Option.some.inj ((ofLabel?_label k).symm.trans ((congrArg ofLabel? h).trans (ofLabel?_label k')))

/-- The name of a kind has none of the characters that end something. -/
theorem not_mem_label (k : NodeKind) : ':' ∉ k.label.toList ∧ '\n' ∉ k.label.toList := by
  cases k <;> decide

end NodeKind

namespace SyntaxTree

variable {depth depth' : Nat} {label label' : NodeLabel}

/-! ### Lines -/

/-- The characters of a line. -/
theorem toList_renderLabel (depth : Nat) (label : NodeLabel) :
    (renderLabel depth label).toList =
      List.replicate depth '\t' ++ '-' :: ' ' :: '[' :: 'c' :: ':' ::
        (Nat.toDigits 10 label.position.line ++ ';' :: ' ' :: 'f' :: ':' ::
          (Nat.toDigits 10 label.position.column ++ ']' :: ' ' ::
            (label.kind.label.toList ++ ':' :: label.value.toList))) := by
  simp only [renderLabel, String.toList_append, String.toList_ofList, Nat.toString_eq_repr,
    Nat.toList_repr, List.append_assoc]
  rfl

/-- **A line determines the depth and the label**, but for the unit, which it does not show. -/
theorem renderLabel_injective (hunit : label.position.unit = label'.position.unit)
    (h : renderLabel depth label = renderLabel depth' label') :
    depth = depth' ∧ label = label' := by
  have hdash : ∀ n, '-' ∉ List.replicate n '\t' := fun n hmem =>
    absurd (List.eq_of_mem_replicate hmem) (by decide)
  have hchars := congrArg String.toList h
  rw [toList_renderLabel, toList_renderLabel] at hchars
  obtain ⟨htabs, hchars⟩ := append_cons_inj (hdash depth) (hdash depth') hchars
  simp only [List.cons.injEq, true_and] at hchars
  obtain ⟨hline, hchars⟩ :=
    append_cons_inj (not_mem_toDigits (by decide) _) (not_mem_toDigits (by decide) _) hchars
  simp only [List.cons.injEq, true_and] at hchars
  obtain ⟨hcolumn, hchars⟩ :=
    append_cons_inj (not_mem_toDigits (by decide) _) (not_mem_toDigits (by decide) _) hchars
  obtain ⟨hkind, hvalue⟩ := append_cons_inj label.kind.not_mem_label.1 label'.kind.not_mem_label.1
    (List.cons.inj hchars).2
  refine ⟨by simpa using congrArg List.length htabs, ?_⟩
  rcases label with ⟨kind, value, line, column, unit⟩
  rcases label' with ⟨kind', value', line', column', unit'⟩
  obtain rfl : kind = kind' := NodeKind.label_injective (String.toList_injective hkind)
  obtain rfl : value = value' := String.toList_injective hvalue
  obtain rfl : line = line' := toDigits_injective hline
  obtain rfl : column = column' := toDigits_injective hcolumn
  obtain rfl : unit = unit' := hunit
  rfl

/-- A line has no line feed if the value has none. -/
theorem not_mem_renderLabel (h : '\n' ∉ label.value.toList) :
    '\n' ∉ (renderLabel depth label).toList := by
  have hline := not_mem_toDigits (c := '\n') (by decide) label.position.line
  have hcolumn := not_mem_toDigits (c := '\n') (by decide) label.position.column
  have hkind := label.kind.not_mem_label.2
  rw [toList_renderLabel]
  simp [hline, hcolumn, hkind, h]

/-! ### Texts of trees -/

/-- **A plain label** stands in the unit, and has no line feed in its value. -/
structure Plain (unit : Path) (label : NodeLabel) : Prop where
  unit : label.position.unit = unit
  value : '\n' ∉ label.value.toList

/-- **The lines are found in the text**, and with them what they show. -/
theorem entries_eq {unit : Path} {ps qs : List (Nat × NodeLabel)} (hps : ∀ p ∈ ps, Plain unit p.2)
    (hqs : ∀ q ∈ qs, Plain unit q.2)
    (h : (ps.flatMap fun p => (renderLabel p.1 p.2).toList ++ ['\n']) =
      qs.flatMap fun q => (renderLabel q.1 q.2).toList ++ ['\n']) : ps = qs := by
  induction ps generalizing qs with
  | nil =>
    cases qs with
    | nil => rfl
    | cons q qs => simp at h
  | cons p ps ih =>
    cases qs with
    | nil => simp at h
    | cons q qs =>
      rw [List.forall_mem_cons] at hps hqs
      rw [List.flatMap_cons, List.flatMap_cons, List.append_assoc, List.append_assoc] at h
      obtain ⟨hline, hrest⟩ := append_cons_inj (not_mem_renderLabel hps.1.value)
        (not_mem_renderLabel hqs.1.value) h
      obtain ⟨hdepth, hlabel⟩ := renderLabel_injective (hps.1.unit.trans hqs.1.unit.symm)
        (String.toList_injective hline)
      rw [ih hps.2 hqs.2 hrest, Prod.ext hdepth hlabel]

/-- The characters of a tree in print: the line of the topmost node, and those below it. -/
theorem toList_render (label : NodeLabel) (children : List SyntaxTree) :
    (render (.node label children)).toList = (renderLabel 0 label).toList ++ '\n' ::
      (Tree.outlineAll 1 children).flatMap fun p => (renderLabel p.1 p.2).toList ++ ['\n'] := by
  rw [render, String.toList_join, renderLines_eq, Tree.outline, List.map_map, List.flatMap_map,
    List.flatMap_cons]
  simp only [Function.comp_apply, String.toList_append, List.append_assoc]
  rfl

theorem mem_outline_of_all {P : NodeLabel → Prop} {t : SyntaxTree} (h : t.All P) (depth : Nat) :
    ∀ p ∈ t.outline depth, P p.2 := by
  induction h generalizing depth with
  | node hlabel _ ih =>
    rw [Tree.outline, List.forall_mem_cons, Tree.outlineAll_eq_flatMap, List.forall_mem_flatMap]
    exact ⟨hlabel, fun t ht => ih t ht (depth + 1)⟩

/-- **The trees below a node are found in print** if all their labels are plain. -/
theorem children_eq_of_render {unit : Path} {ts us : List SyntaxTree}
    (hts : ∀ t ∈ ts, t.All (Plain unit)) (hus : ∀ u ∈ us, u.All (Plain unit))
    (h : render (.node label ts) = render (.node label us)) : ts = us := by
  have hplain : ∀ {vs : List SyntaxTree}, (∀ v ∈ vs, v.All (Plain unit)) →
      ∀ p ∈ Tree.outlineAll 1 vs, Plain unit p.2 := by
    intro vs hvs
    rw [Tree.outlineAll_eq_flatMap, List.forall_mem_flatMap]
    exact fun v hv => mem_outline_of_all (hvs v hv) 1
  have hchars := congrArg String.toList h
  rw [toList_render, toList_render, List.append_cancel_left_eq, List.cons.injEq] at hchars
  exact Tree.outlineAll_injective (entries_eq (hplain hts) (hplain hus) hchars.2)

end SyntaxTree

/-! ### Trees of texts -/

/-- Tokens without line feeds make values without. -/
theorem ValueFrom.not_mem {T : Token → Prop} {value : String} (h : ValueFrom T value)
    (hT : ∀ t, T t → '\n' ∉ t.text.toList) : '\n' ∉ value.toList := by
  cases h with
  | kind k => exact k.not_mem_label.2
  | fixed hword =>
    have hfixed : ∀ word ∈ ["include", "resize", "save"], '\n' ∉ word.toList := by decide
    exact hfixed value hword
  | number ht => exact hT _ ht
  | name ht => exact Text.not_mem_lower (hT _ ht)
  | quoted hts =>
    rw [String.toList_join, List.flatMap_map, List.mem_flatMap]
    rintro ⟨t, ht, hmem⟩
    exact hT t (hts t ht) hmem

theorem SyntaxTree.MadeFrom.plain {T : Token → Prop} {unit : Path} {t : SyntaxTree}
    (h : t.MadeFrom T) (hT : ∀ t, T t → t.position.unit = unit ∧ '\n' ∉ t.text.toList) :
    t.All (SyntaxTree.Plain unit) := by
  induction h with
  | node hlabel _ ih =>
    obtain ⟨token, htoken, hposition⟩ := hlabel.position
    refine .node ⟨hposition ▸ (hT token htoken).1, ?_⟩ ih
    exact hlabel.value.not_mem fun t ht => (hT t ht).2

/-- **A token has no line feed**, since it is a part of a line. -/
theorem not_mem_of_tokenize {unit : Path} {text : String} {tokens : List Token} {t : Token}
    (h : tokenize unit (Text.lines text) = .ok tokens) (ht : t ∈ tokens) :
    t.position.unit = unit ∧ '\n' ∉ t.text.toList := by
  obtain ⟨-, hunit, -, line, hline, htext⟩ := (Lexing.tilesAll_of_scanLines h).stands ht
  refine ⟨hunit, fun hmem => Text.not_mem_lines (List.mem_of_getElem? hline) ?_⟩
  exact List.mem_of_mem_drop (htext.subset hmem)

theorem IsProgram.plain {unit : Path} {text : String} {tree : SyntaxTree}
    (h : IsProgram unit text tree) : ∀ t ∈ tree.children, t.All (SyntaxTree.Plain unit) := by
  intro t ht
  obtain ⟨tokens, htokens, hmade⟩ := h.madeFrom ht
  exact hmade.plain fun token htoken => not_mem_of_tokenize htokens htoken

/-- The root shows the unit. -/
theorem exists_children_of_forestOf {unit : Path} {text : String} {f : Forest}
    (h : forestOf unit text = .ok f) :
    ∃ ts, f.tree? = some (.node ⟨.program, unit.text, .start unit⟩ ts) ∧
      ∀ t ∈ ts, t.All (SyntaxTree.Plain unit) := by
  obtain ⟨tokens, -, hparse⟩ := Fallible.bind_eq_ok_iff.mp h
  obtain ⟨d, -, htree⟩ := tree?_of_parse (Fallible.mapError_eq_ok_iff.mp hparse)
  exact ⟨_, htree, IsProgram.plain ⟨f, h, htree⟩⟩

/-- **The printed tree determines the tree.** Of two texts of a unit that have trees, the trees are
the same, with all kinds, values and positions, exactly if they are the same in print. -/
theorem render_eq_render_iff (unit : Path) (text text' : String) (f f' : Forest)
    (h : forestOf unit text = .ok f) (h' : forestOf unit text' = .ok f') :
    f.render = f'.render ↔ ∃ tree, f.tree? = some tree ∧ f'.tree? = some tree := by
  obtain ⟨ts, htree, hts⟩ := exists_children_of_forestOf h
  obtain ⟨us, htree', hus⟩ := exists_children_of_forestOf h'
  rw [Forest.render, Forest.render, htree, htree']
  constructor
  · intro heq
    obtain rfl : ts = us := SyntaxTree.children_eq_of_render hts hus heq
    exact ⟨_, rfl, rfl⟩
  · rintro ⟨tree, heq, heq'⟩
    rw [heq, heq']

/-- An inclusion of a unit whose name looks like a line of a tree. -/
def misleading : String := "include '\t- [c:1; f:1] PATH:x';"

/-- A comment behind the inclusion does not show in print, so the trees are the same. -/
theorem render_eq_render_iff_misleading : ∃ f f',
    forestOf ⟨"main.pf"⟩ misleading = .ok f ∧
    forestOf ⟨"main.pf"⟩ (misleading ++ " // again") = .ok f' ∧ f.render = f'.render ∧
    ∃ tree, f.tree? = some tree ∧ f'.tree? = some tree := by
  have hprint : (forestOf ⟨"main.pf"⟩ misleading).toOption.map Forest.render =
      (forestOf ⟨"main.pf"⟩ (misleading ++ " // again")).toOption.map Forest.render := by
    decide +kernel
  have hsome : (forestOf ⟨"main.pf"⟩ misleading).toOption.isSome = true := by decide +kernel
  cases h : forestOf ⟨"main.pf"⟩ misleading with
  | error e =>
    rw [h] at hsome
    cases hsome
  | ok f =>
    cases h' : forestOf ⟨"main.pf"⟩ (misleading ++ " // again") with
    | error e =>
      rw [h, h'] at hprint
      cases hprint
    | ok f' =>
      rw [h, h'] at hprint
      have hsame : f.render = f'.render := Option.some.inj hprint
      exact ⟨f, f', rfl, rfl, hsame, (render_eq_render_iff _ _ _ f f' h h').mp hsame⟩

end PizzaLang
