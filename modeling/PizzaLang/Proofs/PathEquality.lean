import Mathlib.Data.List.Forall2
import PizzaLang.Resource.Sources

/-!
# Operations on paths keep path equality

Paths are compared by their components but taken apart and put together as texts. The operations
on texts are operations on components:

* `PizzaLang.Path.components_parent`: going up drops the last component;
* `PizzaLang.Path.components_join`: a relative path puts its components behind those of the
  directory, apart from a dot that it starts with.

Hence they send equal paths to equal paths. The units in memory are looked up by equality of
paths, so the same goes for them: `PizzaLang.Library.respects`.
-/

namespace PizzaLang

namespace Path

/-! ### Segments -/

theorem segmentsOf_ne_nil (cs : List Char) : segmentsOf cs ≠ [] := by
  cases cs with
  | nil => simp [segmentsOf]
  | cons c cs =>
    rw [segmentsOf]
    split
    · simp
    · split <;> simp

theorem segmentsOf_append_slash (a b : List Char) :
    segmentsOf (a ++ '/' :: b) = segmentsOf a ++ segmentsOf b := by
  induction a with
  | nil => simp [segmentsOf]
  | cons c a ih =>
    rw [List.cons_append, segmentsOf, segmentsOf, ih]
    split
    · rfl
    · obtain ⟨segment, others, hsegments⟩ := List.exists_cons_of_ne_nil (segmentsOf_ne_nil a)
      rw [hsegments]
      rfl

theorem segmentsOf_of_not_mem {cs : List Char} (h : '/' ∉ cs) : segmentsOf cs = [cs] := by
  induction cs with
  | nil => rfl
  | cons c cs ih =>
    rw [List.mem_cons, not_or] at h
    obtain ⟨hc, hcs⟩ := h
    rw [segmentsOf, if_neg (Ne.symm hc), ih hcs]

theorem not_mem_of_mem_segmentsOf {cs segment : List Char} (h : segment ∈ segmentsOf cs) :
    '/' ∉ segment := by
  induction cs generalizing segment with
  | nil =>
    obtain rfl := List.mem_singleton.mp h
    exact List.not_mem_nil
  | cons c cs ih =>
    rw [segmentsOf] at h
    split at h
    · rcases List.mem_cons.mp h with rfl | h
      · exact List.not_mem_nil
      · exact ih h
    · next hc =>
      obtain ⟨first, others, hsegments⟩ := List.exists_cons_of_ne_nil (segmentsOf_ne_nil cs)
      rw [hsegments] at h ih
      rcases List.mem_cons.mp h with rfl | h
      · rw [List.mem_cons, not_or]
        exact ⟨Ne.symm hc, ih List.mem_cons_self⟩
      · exact ih (List.mem_cons_of_mem _ h)

/-- Segments that are written are read back. -/
theorem segmentsOf_writeSegments {segments : List (List Char)} (hne : segments ≠ [])
    (h : ∀ segment ∈ segments, '/' ∉ segment) :
    segmentsOf (writeSegments segments) = segments := by
  induction segments with
  | nil => exact absurd rfl hne
  | cons first others ih =>
    have hfirst := segmentsOf_of_not_mem (h first List.mem_cons_self)
    cases others with
    | nil => rw [writeSegments, List.intercalate_singleton, hfirst]
    | cons second others =>
      have hothers := ih (List.cons_ne_nil _ _) fun s hs => h s (List.mem_cons_of_mem _ hs)
      rw [writeSegments, List.intercalate_cons_cons, List.append_assoc, List.singleton_append,
        segmentsOf_append_slash, hfirst, ← writeSegments, hothers, List.singleton_append]

/-! ### Components -/

/-- The components of a body, given by its segments. -/
def telling (segments : List (List Char)) : List Component :=
  (segments.filter (!isIdle ·)).map Component.ofSegment

/-- The component that a lead stands for. -/
def leading : List Char → List Component
  | ['/'] => [.root]
  | ['.'] => [.here]
  | _ => []

/-- The components of the path with this text. -/
def componentsOf (cs : List Char) : List Component :=
  leading (divide cs).1 ++ telling (segmentsOf (divide cs).2)

theorem components_eq (p : Path) : p.components = componentsOf p.text.toList := by
  rw [components, componentsOf, telling, lead, segments]
  congr 1

theorem telling_append (a b : List (List Char)) : telling (a ++ b) = telling a ++ telling b := by
  rw [telling, List.filter_append, List.map_append, telling, telling]

theorem telling_cons_idle {segment : List Char} {segments : List (List Char)}
    (h : isIdle segment = true) : telling (segment :: segments) = telling segments := by
  simp [telling, h]

/-- A body has neither a root nor a current directory. -/
theorem ne_of_mem_telling {segments : List (List Char)} {component : Component}
    (h : component ∈ telling segments) : component ≠ .root ∧ component ≠ .here := by
  obtain ⟨segment, -, rfl⟩ := List.mem_map.mp h
  rw [Component.ofSegment]
  split
  · exact ⟨nofun, nofun⟩
  · exact ⟨nofun, nofun⟩

theorem divide_append_slash {a : List Char} (ha : a ≠ []) (b : List Char) :
    divide (a ++ '/' :: b) = ((divide a).1, (divide a).2 ++ '/' :: b) := by
  fun_cases divide a with
  | case1 body => rfl
  | case2 => rfl
  | case3 body => rfl
  | case4 _ hroot hdot hhere =>
    obtain ⟨c, rest, rfl⟩ := List.exists_cons_of_ne_nil ha
    rw [divide.eq_def]
    split
    · next body heq => exact (hroot rest (by rw [(List.cons.inj heq).1])).elim
    · next heq => exact absurd (congrArg List.length heq) (by simp)
    · next body heq =>
      obtain ⟨rfl, hrest⟩ := List.cons.inj heq
      cases rest with
      | nil => exact (hdot rfl).elim
      | cons d rest => exact (hhere rest (by rw [(List.cons.inj hrest).1])).elim
    · rfl

/-- What is written behind a slash adds its components. -/
theorem componentsOf_append_slash {a : List Char} (ha : a ≠ []) (b : List Char) :
    componentsOf (a ++ '/' :: b) = componentsOf a ++ telling (segmentsOf b) := by
  rw [componentsOf, divide_append_slash ha, segmentsOf_append_slash, telling_append,
    ← List.append_assoc, componentsOf]

/-- Behind a directory, the dot that a relative path starts with says nothing. -/
theorem telling_segmentsOf {b : List Char} (hb : b.head? ≠ some '/') :
    telling (segmentsOf b) = (componentsOf b).filter (· ≠ .here) := by
  have hkept : ∀ segments, (telling segments).filter (· ≠ .here) = telling segments :=
    fun segments => List.filter_eq_self.mpr fun component h =>
      decide_eq_true (ne_of_mem_telling h).2
  rw [componentsOf, List.filter_append, hkept]
  fun_cases divide b with
  | case1 body => exact absurd rfl hb
  | case2 => rfl
  | case3 body => rfl
  | case4 => rfl

/-- A path without a lead starts with a segment that says something. -/
theorem exists_segmentsOf_of_divide {cs : List Char} (h : (divide cs).1 = []) (hne : cs ≠ []) :
    (divide cs).2 = cs ∧
      ∃ first others, segmentsOf cs = first :: others ∧ isIdle first = false := by
  revert h
  fun_cases divide cs with
  | case1 body => exact nofun
  | case2 => exact nofun
  | case3 body => exact nofun
  | case4 _ hroot hdot hhere =>
    intro _
    obtain ⟨c, rest, rfl⟩ := List.exists_cons_of_ne_nil hne
    have hc : c ≠ '/' := fun hc => hroot rest (by rw [hc])
    obtain ⟨first, others, hsegments⟩ := List.exists_cons_of_ne_nil (segmentsOf_ne_nil rest)
    refine ⟨rfl, c :: first, others, by rw [segmentsOf, if_neg hc, hsegments], ?_⟩
    -- a lone dot would have been the lead
    by_cases hdots : c :: first = ['.']
    · obtain ⟨rfl, rfl⟩ := List.cons.inj hdots
      cases rest with
      | nil => exact (hdot rfl).elim
      | cons d rest =>
        rw [segmentsOf] at hsegments
        split at hsegments
        · next hd => exact (hhere rest (by rw [hd])).elim
        · split at hsegments
          · exact absurd (List.cons.inj hsegments).1 (List.cons_ne_nil _ _)
          · exact absurd (List.cons.inj hsegments).1 (List.cons_ne_nil _ _)
    · rw [isIdle, List.isEmpty_cons, Bool.false_or, beq_eq_false_iff_ne]
      exact hdots

/-- Only the empty text has no components. -/
theorem componentsOf_eq_nil_iff {cs : List Char} : componentsOf cs = [] ↔ cs = [] := by
  constructor
  · refine fun h => Classical.byContradiction fun hne => ?_
    obtain ⟨hlead, htelling⟩ := List.append_eq_nil_iff.mp h
    have hlead' : (divide cs).1 = [] := by
      revert hlead
      fun_cases divide cs <;> simp [leading]
    obtain ⟨hbody, first, others, hsegments, hidle⟩ := exists_segmentsOf_of_divide hlead' hne
    rw [hbody, hsegments] at htelling
    simp [telling, hidle] at htelling
  · rintro rfl
    rfl

/-! ### Going down -/

variable {p q r r' dir dir' : Path}

theorem isAbsolute_iff : p.isAbsolute = true ↔ p.components.head? = some .root := by
  rw [components_eq, isAbsolute, beq_iff_eq]
  generalize p.text.toList = cs
  constructor
  · intro h
    obtain ⟨body, rfl⟩ := List.head?_eq_some_iff.mp h
    rfl
  · rw [componentsOf]
    fun_cases divide cs with
    | case1 body => exact fun _ => rfl
    | case2 => exact nofun
    | case3 body => exact nofun
    | case4 =>
      intro h
      have hmem := List.mem_of_mem_head? (Option.mem_def.mpr h)
      exact absurd rfl (ne_of_mem_telling hmem).1

/-- **A relative path puts its components behind those of the directory.** -/
theorem components_join (hr : r.isAbsolute = false) (hdir : dir.components ≠ []) :
    (dir.join r).components = dir.components ++ r.components.filter (· ≠ .here) := by
  have hd : dir.text.toList ≠ [] := by
    rwa [components_eq, Ne, componentsOf_eq_nil_iff] at hdir
  have hhead : r.text.toList.head? ≠ some '/' := by
    simpa [isAbsolute] using hr
  have hempty : dir.text.isEmpty = false := by
    simpa using hd
  rw [join, hr, if_neg (by decide), hempty, Bool.false_or, components_eq dir, components_eq r,
    ← telling_segmentsOf hhead]
  split
  · next hslash =>
    -- the slash that the directory ends with is the one that divides
    obtain ⟨init, hinit⟩ := List.getLast?_eq_some_iff.mp (beq_iff_eq.mp hslash)
    rw [components_eq, String.toList_append, hinit, List.append_assoc, List.singleton_append]
    cases init with
    | nil => rfl
    | cons c init =>
      rw [componentsOf_append_slash (List.cons_ne_nil c init),
        componentsOf_append_slash (List.cons_ne_nil c init), List.append_assoc]
      rfl
  · rw [components_eq, String.toList_append, String.toList_append, List.append_assoc]
    exact componentsOf_append_slash hd _

theorem join_of_components_eq_nil (h : dir.components = []) : dir.join r = r := by
  have htext : dir.text = "" := by
    rw [components_eq, componentsOf_eq_nil_iff] at h
    exact String.toList_eq_nil_iff.mp h
  rw [join, htext, String.empty_append]
  simp

theorem Same.isAbsolute (h : r.Same r') : r.isAbsolute = r'.isAbsolute := by
  rw [Bool.eq_iff_iff, isAbsolute_iff, isAbsolute_iff, h]

theorem Same.join (hdir : dir.Same dir') (hr : r.Same r') : (dir.join r).Same (dir'.join r') := by
  have habsolute := hr.isAbsolute
  -- joined to the empty path a path stays as it is, even a dot that it starts with
  by_cases hnil : dir.components = []
  · rw [join_of_components_eq_nil hnil, join_of_components_eq_nil (hdir ▸ hnil)]
    exact hr
  · cases hcase : r.isAbsolute with
    | true =>
      rw [Path.join, Path.join, if_pos hcase, if_pos (habsolute ▸ hcase)]
      exact hr
    | false =>
      rw [Same, components_join hcase hnil, components_join (habsolute ▸ hcase) (hdir ▸ hnil), hdir,
        hr]

/-! ### Going up -/

theorem divide_of_segmentsOf {cs first : List Char} {others : List (List Char)}
    (h : segmentsOf cs = first :: others) (hidle : isIdle first = false) :
    divide cs = ([], cs) := by
  fun_cases divide cs with
  | case1 body =>
    obtain ⟨rfl, -⟩ := List.cons.inj h
    cases hidle
  | case2 =>
    obtain ⟨rfl, -⟩ := List.cons.inj h
    cases hidle
  | case3 body =>
    obtain ⟨rfl, -⟩ := List.cons.inj h
    cases hidle
  | case4 => rfl

theorem telling_segmentsOf_writeSegments {segments : List (List Char)}
    (h : ∀ segment ∈ segments, '/' ∉ segment) :
    telling (segmentsOf (writeSegments segments)) = telling segments := by
  cases segments with
  | nil => rfl
  | cons first others => rw [segmentsOf_writeSegments (List.cons_ne_nil _ _) h]

/-- **A path that is cut off keeps its lead**, and the segments up to the cut. -/
theorem componentsOf_lead_append {cs : List Char} {kept : List (List Char)}
    (h : kept <+: segmentsOf (divide cs).2) :
    componentsOf ((divide cs).1 ++ writeSegments kept) = leading (divide cs).1 ++ telling kept := by
  have hslash : ∀ segment ∈ kept, '/' ∉ segment :=
    fun segment hmem => not_mem_of_mem_segmentsOf (h.subset hmem)
  have hkept := telling_segmentsOf_writeSegments hslash
  by_cases hnil : kept = []
  · subst hnil
    fun_cases divide cs <;> rfl
  obtain ⟨first, others, rfl⟩ := List.exists_cons_of_ne_nil hnil
  obtain ⟨dropped, hdropped⟩ := h
  have hlead : (divide cs).1 = [] → cs ≠ [] → (divide cs).2 = cs ∧ ∃ head tail,
      segmentsOf cs = head :: tail ∧ isIdle head = false := exists_segmentsOf_of_divide
  revert hdropped hlead
  fun_cases divide cs with
  | case1 body => exact fun _ _ => congrArg (Component.root :: ·) hkept
  | case2 =>
    -- behind a lone dot there is only the empty segment
    intro hdropped _
    obtain ⟨rfl, hothers⟩ := List.cons.inj hdropped
    obtain ⟨rfl, -⟩ := List.append_eq_nil_iff.mp hothers
    rfl
  | case3 body =>
    -- the first segment is the empty one between the dot and its slash
    intro hdropped _
    obtain ⟨rfl, -⟩ := List.cons.inj hdropped
    cases others with
    | nil => rfl
    | cons second others => exact congrArg (Component.here :: ·) hkept
  | case4 =>
    intro hdropped hlead
    by_cases hne : cs = []
    · subst hne
      obtain ⟨rfl, hothers⟩ := List.cons.inj hdropped
      obtain ⟨rfl, -⟩ := List.append_eq_nil_iff.mp hothers
      rfl
    · -- what is kept starts with a segment that says something, so it has no lead either
      obtain ⟨-, head, tail, hsegments, hidle⟩ := hlead rfl hne
      obtain ⟨rfl, -⟩ := List.cons.inj (hdropped.trans hsegments)
      have hwritten := segmentsOf_writeSegments hnil hslash
      rw [List.nil_append, componentsOf, divide_of_segmentsOf hwritten hidle]
      exact hkept

theorem telling_dropWhile (segments : List (List Char)) :
    telling (segments.dropWhile isIdle) = telling segments := by
  induction segments with
  | nil => rfl
  | cons segment segments ih =>
    by_cases h : isIdle segment = true
    · rw [List.dropWhile_cons_of_pos h, telling_cons_idle h, ih]
    · rw [List.dropWhile_cons_of_neg h]

theorem telling_reverse (segments : List (List Char)) :
    telling segments.reverse = (telling segments).reverse := by
  rw [telling, List.filter_reverse, List.map_reverse, telling]

/-- **Going up drops the last component**; the empty path and the root have nothing above. -/
theorem components_parent (p : Path) :
    p.parent.map components =
      if p.components = [] ∨ p.components = [.root] then none else some p.components.dropLast := by
  have hsplit : p.components = leading p.lead ++ telling p.segments := components_eq p
  have hbackwards : telling p.segments =
      (telling (p.segments.reverse.dropWhile isIdle)).reverse := by
    rw [telling_dropWhile, telling_reverse, List.reverse_reverse]
  rw [parent]
  split
  · next last above heq =>
    have hlast : isIdle last = false := by
      have := List.head?_dropWhile_not isIdle p.segments.reverse
      rwa [heq] at this
    have htelling : telling (last :: above) = Component.ofSegment last :: telling above := by
      simp [telling, hlast]
    rw [heq, htelling, List.reverse_cons] at hbackwards
    have hkept : (above.dropWhile isIdle).reverse <+: p.segments := by
      rw [← List.reverse_reverse p.segments, List.reverse_prefix]
      exact ((List.dropWhile_suffix _).trans (List.suffix_cons last above)).trans
        (heq ▸ List.dropWhile_suffix _)
    have hcomponents : components ⟨String.ofList
        (p.lead ++ writeSegments (above.dropWhile isIdle).reverse)⟩ =
        leading p.lead ++ (telling above).reverse := by
      rw [components_eq, String.toList_ofList, lead, componentsOf_lead_append hkept,
        telling_reverse, telling_dropWhile]
    have hnil : p.components ≠ [] := by
      rw [hsplit, hbackwards]
      simp
    have hroot : p.components ≠ [.root] := by
      intro h
      have hmem : Component.ofSegment last ∈ telling p.segments := by
        rw [hbackwards]
        exact List.mem_append_right _ List.mem_cons_self
      have hmem' : Component.ofSegment last ∈ p.components := hsplit ▸ List.mem_append_right _ hmem
      rw [h] at hmem'
      exact (ne_of_mem_telling hmem).1 (List.mem_singleton.mp hmem')
    rw [if_neg (not_or.mpr ⟨hnil, hroot⟩), Option.map_some, hcomponents, hsplit, hbackwards,
      ← List.append_assoc, List.dropLast_concat]
  · next heq =>
    -- only the lead says anything
    rw [heq] at hbackwards
    rw [hbackwards] at hsplit
    rw [hsplit, lead]
    fun_cases divide p.text.toList <;> rfl

theorem Same.parent (h : p.Same q) : Option.Rel Same p.parent q.parent := by
  have hp := components_parent p
  have hq := components_parent q
  rw [h, ← hq] at hp
  cases hpp : p.parent <;> cases hqq : q.parent <;> rw [hpp, hqq] at hp
  · exact .none
  · cases hp
  · cases hp
  · exact .some (Option.some.inj hp)

end Path

/-! ### Supplies of units -/

/-- Answers that agree up to path equality. -/
inductive SameAnswer : Except LookupError Path → Except LookupError Path → Prop
  | ok {p q : Path} : p.Same q → SameAnswer (.ok p) (.ok q)
  | error (e : LookupError) : SameAnswer (.error e) (.error e)

/-- **A supply of units respects path equality**: equal paths get equal answers. -/
structure Sources.Respects (sources : Sources) : Prop where
  locate : ∀ {r r' : Path} {o o' : Option Path}, r.Same r' → Option.Rel Path.Same o o' →
    SameAnswer (sources.locate r o) (sources.locate r' o')
  load : ∀ {p q : Path}, p.Same q → sources.load p = sources.load q

namespace Library

variable {l : Library} {p q r r' : Path} {o o' : Option Path}

theorem text?_congr (h : p.Same q) : l.text? p = l.text? q := by
  rw [text?, text?]
  congr 2
  funext ⟨path, text⟩
  exact decide_eq_decide.mpr ⟨fun hp => Eq.trans hp h, fun hq => Eq.trans hq h.symm⟩

theorem load_eq_ok_iff {text : String} : l.load p = .ok text ↔ l.text? p = some text := by
  rw [load]
  cases l.text? p <;> simp

/-- The paths that equal references may mean from equal units are equal one by one. -/
theorem forall₂_candidates (hr : r.Same r') (ho : Option.Rel Path.Same o o') :
    List.Forall₂ Path.Same (candidates r o) (candidates r' o') := by
  rw [candidates, candidates, ← hr.isAbsolute]
  cases r.isAbsolute with
  | true => exact .cons hr .nil
  | false =>
    cases ho with
    | none => exact .cons hr .nil
    | @some p q hpq =>
      have hparent := hpq.parent
      simp only [Bool.false_eq_true, if_false, Option.bind_some]
      cases hp : p.parent <;> cases hq : q.parent <;> rw [hp, hq] at hparent <;> cases hparent
      · exact .cons hr .nil
      · next hdir => exact .cons (hdir.join hr) (.cons hr .nil)

/-- **Units in memory respect path equality.** -/
theorem respects (l : Library) : l.sources.Respects where
  locate := by
    intro r r' o o' hr ho
    have hcandidates := forall₂_candidates hr ho
    change SameAnswer (l.locate r o) (l.locate r' o')
    rw [locate, locate]
    generalize candidates r o = ps at hcandidates ⊢
    generalize candidates r' o' = qs at hcandidates ⊢
    induction hcandidates with
    | nil => exact .error _
    | @cons p q ps qs hpq _ ih =>
      rw [List.find?_cons, List.find?_cons, text?_congr hpq]
      cases (l.text? q).isSome with
      | true => exact .ok hpq
      | false => exact ih
  load := by
    intro p q h
    change l.load p = l.load q
    rw [load, load, text?_congr h]

end Library

end PizzaLang
