import Mathlib
import DocRefs.Proofs.Coherence
import DocRefs.Proofs.IdentifierRuns
import DocRefs.Proofs.Stability
import DocRefs.Proofs.TagPlaces

/-!
# What a file declares

The name that a tag gives, said without the searches for braces and identifiers, and what the
identity of a file is made of: the names of its type declarations in the order of their tags, and
the name of its first module tag.
-/

namespace DocRefs

/-! ## Brace groups -/

/-- A text from an opening brace to the first place at which as many braces have closed as have
opened. -/
structure BraceGroup (g : Text) : Prop where
  head : g.head? = some '{'
  balanced : g.count '{' = g.count '}'
  first : ∀ u, u <+: g → u ≠ [] → u.count '{' = u.count '}' → u = g

/-- How many braces a text leaves open. -/
def braceLevel (t : Text) : Int := t.count '{' - t.count '}'

theorem braceLevel_nil : braceLevel [] = 0 := rfl

theorem braceLevel_cons (c : Char) (t : Text) :
    braceLevel (c :: t) =
      (if c = '{' then 1 else if c = '}' then -1 else 0) + braceLevel t := by
  simp only [braceLevel, List.count_cons, beq_iff_eq]
  by_cases hopen : c = '{'
  · subst hopen
    simp only [if_true, show '{' ≠ '}' by decide, if_false]
    omega
  · simp only [hopen, if_false]
    split
    · omega
    · omega

/-- The text closes the braces that are open in front of it, and none of its beginnings does. -/
structure ClosesFrom (depth : Int) (g : Text) : Prop where
  closed : depth + braceLevel g = 0
  first : ∀ u, u <+: g → depth + braceLevel u = 0 → u = g

theorem closesFrom_cons_iff {depth : Int} (hdepth : depth ≠ 0) (c : Char) (g : Text) :
    ClosesFrom depth (c :: g) ↔ ClosesFrom (depth + braceLevel [c]) g := by
  have hlevel : ∀ u, depth + braceLevel (c :: u) = depth + braceLevel [c] + braceLevel u := by
    intro u
    rw [braceLevel_cons, braceLevel_cons c [], braceLevel_nil]
    omega
  constructor
  · rintro ⟨hclosed, hfirst⟩
    rw [hlevel] at hclosed
    refine ⟨hclosed, fun u hu hzero => ?_⟩
    rw [← hlevel] at hzero
    exact (List.cons.inj (hfirst (c :: u) (List.cons_prefix_cons.mpr ⟨rfl, hu⟩) hzero)).2
  · rintro ⟨hclosed, hfirst⟩
    refine ⟨by rw [hlevel, hclosed], fun u hu hzero => ?_⟩
    cases u with
    | nil => exact absurd (by simpa [braceLevel_nil] using hzero) hdepth
    | cons d u =>
        obtain ⟨rfl, hbehind⟩ := List.cons_prefix_cons.mp hu
        rw [hlevel] at hzero
        rw [hfirst u hbehind hzero]

theorem ClosesFrom.exists_cons {depth : Int} (hdepth : depth ≠ 0) {g : Text}
    (h : ClosesFrom depth g) : ∃ c u, g = c :: u := by
  apply List.exists_cons_of_ne_nil
  rintro rfl
  exact hdepth (by simpa [braceLevel_nil] using h.closed)

/-- With braces open, the search reads up to the brace that closes them. -/
theorem braceGroup?_eq_some_iff {depth : Int} (hdepth : 0 < depth) {t g after : Text} :
    braceGroup? depth t = some (g, after) ↔ t = g ++ after ∧ ClosesFrom depth g := by
  have hne : depth ≠ 0 := Int.ne_of_gt hdepth
  -- Every brace changes the depth, so it is generalised; all that is kept of it is its sign.
  induction t generalizing depth g with
  | nil =>
      simp only [braceGroup?, reduceCtorEq, false_iff, not_and]
      intro hnil hcloses
      obtain ⟨c, u, rfl⟩ := hcloses.exists_cons hne
      simp at hnil
  | cons c t ih =>
      have hlevel : depth + braceLevel [c] =
          if c = '{' then depth + 1 else if c = '}' then depth - 1 else depth := by
        rw [braceLevel_cons, braceLevel_nil]
        split
        · omega
        · split <;> omega
      rw [braceGroup?, ← hlevel]
      split
      next hclose =>
        obtain ⟨rfl, hzero⟩ := hclose
        constructor
        · rintro ⟨⟩
          refine ⟨rfl, (closesFrom_cons_iff hne '}' []).mpr ⟨?_, fun u hu _ => ?_⟩⟩
          · rw [hzero, braceLevel_nil, Int.add_zero]
          · exact List.prefix_nil.mp hu
        · rintro ⟨hsplit, hcloses⟩
          obtain ⟨d, u, rfl⟩ := hcloses.exists_cons hne
          obtain ⟨rfl, rfl⟩ : '}' = d ∧ t = u ++ after := by simpa using hsplit
          obtain ⟨⟩ := hcloses.first ['}'] (by simp) hzero
          rfl
      next hopen =>
        have hdepth' : 0 < depth + braceLevel [c] := by
          by_cases hc : c = '}'
          · subst hc
            have hnot : depth + braceLevel ['}'] ≠ 0 := fun h => hopen ⟨rfl, h⟩
            have hminus : depth + braceLevel ['}'] = depth - 1 := hlevel
            omega
          · rw [hlevel, if_neg hc]
            split <;> omega
        rw [Option.map_eq_some_iff]
        constructor
        · rintro ⟨⟨g', after'⟩, hgroup, ⟨⟩⟩
          obtain ⟨rfl, hcloses⟩ := (ih hdepth' (Int.ne_of_gt hdepth')).mp hgroup
          exact ⟨rfl, (closesFrom_cons_iff hne c g').mpr hcloses⟩
        · rintro ⟨hsplit, hcloses⟩
          obtain ⟨d, u, rfl⟩ := hcloses.exists_cons hne
          obtain ⟨rfl, rfl⟩ : c = d ∧ t = u ++ after := by simpa using hsplit
          exact ⟨(u, after), (ih hdepth' (Int.ne_of_gt hdepth')).mpr
            ⟨rfl, (closesFrom_cons_iff hne c u).mp hcloses⟩, rfl⟩

theorem braceGroup_iff {g : Text} : BraceGroup g ↔ ∃ u, g = '{' :: u ∧ ClosesFrom 1 u := by
  have hlevel : ∀ u : Text,
      ('{' :: u).count '{' = ('{' :: u).count '}' ↔ 1 + braceLevel u = 0 := by
    intro u
    rw [braceLevel, List.count_cons_self, List.count_cons_of_ne (by decide)]
    omega
  constructor
  · rintro ⟨hhead, hbalanced, hfirst⟩
    obtain ⟨u, rfl⟩ := List.head?_eq_some_iff.mp hhead
    refine ⟨u, rfl, (hlevel u).mp hbalanced, fun v hv hzero => ?_⟩
    have hwhole := hfirst ('{' :: v) (List.cons_prefix_cons.mpr ⟨rfl, hv⟩) (by simp)
      ((hlevel v).mpr hzero)
    exact (List.cons.inj hwhole).2
  · rintro ⟨u, rfl, hclosed, hfirst⟩
    refine ⟨rfl, (hlevel u).mpr hclosed, fun v hv hne hbalanced => ?_⟩
    obtain ⟨c, v, rfl⟩ := List.exists_cons_of_ne_nil hne
    obtain ⟨rfl, hbehind⟩ := List.cons_prefix_cons.mp hv
    rw [hfirst v hbehind ((hlevel v).mp hbalanced)]

/-- The search for a brace group finds the group. -/
theorem braceGroup?_zero_eq_some_iff {t g after : Text} (hhead : t.head? = some '{') :
    braceGroup? 0 t = some (g, after) ↔ t = g ++ after ∧ BraceGroup g := by
  obtain ⟨t, rfl⟩ := List.head?_eq_some_iff.mp hhead
  have hstep : braceGroup? 0 ('{' :: t) = (braceGroup? 1 t).map fun p => ('{' :: p.1, p.2) := by
    rw [braceGroup?]
    rfl
  rw [hstep, Option.map_eq_some_iff, braceGroup_iff]
  constructor
  · rintro ⟨⟨u, after⟩, hgroup, ⟨⟩⟩
    obtain ⟨rfl, hcloses⟩ := (braceGroup?_eq_some_iff Int.one_pos).mp hgroup
    exact ⟨rfl, u, rfl, hcloses⟩
  · rintro ⟨hsplit, u, rfl, hcloses⟩
    obtain rfl : t = u ++ after := (List.cons.inj hsplit).2
    exact ⟨(u, after), (braceGroup?_eq_some_iff Int.one_pos).mpr ⟨rfl, hcloses⟩, rfl⟩

/-! ## Arguments -/

theorem Text.dropWhile_eq_iff {p : Char → Bool} {t u : Text} :
    t.dropWhile p = u ↔ ∃ skip, t = skip ++ u ∧ (∀ c ∈ skip, p c = true) ∧
      u.head?.any p = false := by
  constructor
  · rintro rfl
    refine ⟨t.takeWhile p, List.takeWhile_append_dropWhile.symm,
      fun c hc => List.mem_takeWhile_imp hc, ?_⟩
    have hhead := List.head?_dropWhile_not p t
    cases h : (t.dropWhile p).head? with
    | none => rfl
    | some c => simpa [h] using hhead
  · rintro ⟨skip, rfl, hskip, hstop⟩
    rw [List.dropWhile_append_of_pos hskip]
    cases u with
    | nil => rfl
    | cons c u => exact List.dropWhile_cons_of_neg (by simpa using hstop)

theorem Text.takeWhile_eq_iff {p : Char → Bool} {t name : Text} :
    t.takeWhile p = name ↔ ∃ rest, t = name ++ rest ∧ (∀ c ∈ name, p c = true) ∧
      rest.head?.any p = false := by
  constructor
  · rintro rfl
    obtain ⟨skip, hskip, -, hstop⟩ := Text.dropWhile_eq_iff.mp (rfl : t.dropWhile p = _)
    exact ⟨t.dropWhile p, List.takeWhile_append_dropWhile.symm,
      fun c hc => List.mem_takeWhile_imp hc, hstop⟩
  · rintro ⟨rest, rfl, hname, hstop⟩
    rw [List.takeWhile_append_of_pos hname]
    cases rest with
    | nil => simp
    | cons c rest => rw [List.takeWhile_cons_of_neg (by simpa using hstop), List.append_nil]

theorem behindGroup?_eq_some_iff {blank : Char → Bool} {t u : Text} :
    behindGroup? blank t = some u ↔ ∃ g skip, t = g ++ (skip ++ u) ∧ BraceGroup g ∧
      (∀ c ∈ skip, blank c = true) ∧ u.head?.any blank = false := by
  unfold behindGroup?
  constructor
  · intro h
    split at h
    next hhead =>
      obtain ⟨⟨g, after⟩, hgroup, hdrop⟩ := Option.map_eq_some_iff.mp h
      obtain ⟨rfl, hbraces⟩ := (braceGroup?_zero_eq_some_iff hhead).mp hgroup
      obtain ⟨skip, hafter, hskip, hstop⟩ := Text.dropWhile_eq_iff.mp hdrop
      exact ⟨g, skip, congrArg (g ++ ·) hafter, hbraces, hskip, hstop⟩
    · simp at h
  · rintro ⟨g, skip, rfl, hbraces, hskip, hstop⟩
    have hhead : (g ++ (skip ++ u)).head? = some '{' := by
      obtain ⟨g, rfl, -⟩ := braceGroup_iff.mp hbraces
      rfl
    rw [if_pos hhead, (braceGroup?_zero_eq_some_iff hhead).mpr ⟨rfl, hbraces⟩, Option.map_some,
      Text.dropWhile_eq_iff.mpr ⟨skip, rfl, hskip, hstop⟩]

theorem behindGroup?_eq_none_iff {blank : Char → Bool} {t : Text} :
    behindGroup? blank t = none ↔ ∀ g, BraceGroup g → ¬g <+: t := by
  constructor
  · rintro hnone g hbraces ⟨after, rfl⟩
    obtain ⟨skip, hafter, hskip, hstop⟩ :=
      Text.dropWhile_eq_iff.mp (rfl : after.dropWhile blank = _)
    have hsome : behindGroup? blank (g ++ after) = some (after.dropWhile blank) :=
      behindGroup?_eq_some_iff.mpr ⟨g, skip, congrArg (g ++ ·) hafter, hbraces, hskip, hstop⟩
    simp [hnone] at hsome
  · intro hnone
    cases h : behindGroup? blank t with
    | none => rfl
    | some u =>
        obtain ⟨g, skip, rfl, hbraces, -⟩ := behindGroup?_eq_some_iff.mp h
        exact absurd (List.prefix_append g _) (hnone g hbraces)

/-- What follows a tag declares a type: white space, a brace group, white space, and as its name the
longest dotted identifier there. -/
inductive DeclaresType : Text → Text → Prop
  | intro {lead g skip name post : Text} (hlead : ∀ c ∈ lead, Text.isBlank c = true)
      (hgroup : BraceGroup g) (hskip : ∀ c ∈ skip, Text.isBlank c = true)
      (hname : MaximalRun [] name post) :
      DeclaresType (lead ++ (g ++ (skip ++ (name ++ post)))) name

theorem declaredType?_eq_some_iff {rest name : Text} :
    declaredType? rest = some name ↔ DeclaresType rest name := by
  rw [declaredType?_eq, typedefPlace?, Option.bind_eq_some_iff]
  constructor
  · rintro ⟨u, hplace, hname⟩
    obtain ⟨g, skip, hdrop, hgroup, hskip, -⟩ := behindGroup?_eq_some_iff.mp hplace
    obtain ⟨lead, rfl, hlead, -⟩ := Text.dropWhile_eq_iff.mp hdrop
    split at hname
    · simp at hname
    next hne =>
      obtain rfl := Option.some.inj hname
      have hnil : (dotted u).1 ≠ [] := by simpa using hne
      have hrun : MaximalRun [] (dotted u).1 (dotted u).2 :=
        maximalRun_iff.mpr ⟨isDotted_dotted hnil, trivial, ends_dotted hnil⟩
      have hdeclares := DeclaresType.intro hlead hgroup hskip hrun
      rwa [dotted_append] at hdeclares
  · rintro ⟨hlead, hgroup, hskip, hname⟩
    rename_i lead g skip post
    obtain ⟨hdotted, -, hends⟩ := maximalRun_iff.mp hname
    have hopens : (g ++ (skip ++ (name ++ post))).head?.any Text.isBlank = false := by
      obtain ⟨u, rfl, -⟩ := braceGroup_iff.mp hgroup
      rfl
    have hbegins : (name ++ post).head?.any Text.isBlank = false := by
      obtain ⟨c, cs, rfl, hc, -⟩ := hdotted.exists_cons
      by_contra hblank
      have hnot := isIdentifierChar_of_isBlank (c := c) (by simpa using hblank)
      simp [hc] at hnot
    have hdrop := Text.dropWhile_eq_iff.mpr ⟨lead, rfl, hlead, hopens⟩
    refine ⟨name ++ post,
      behindGroup?_eq_some_iff.mpr ⟨g, skip, hdrop, hgroup, hskip, hbegins⟩, ?_⟩
    rw [hdotted.dotted_append hends, if_neg (by simpa using hdotted.1)]

/-- What follows a module tag names the module: blanks, a brace group with blanks if there is one,
and the longest run of name characters, which may be empty. -/
inductive NamesModule : Text → Text → Prop
  | bare {lead name post : Text} (hlead : ∀ c ∈ lead, Text.isSpaceOrTab c = true)
      (hgroup : ∀ g, BraceGroup g → ¬g <+: name ++ post)
      (hstop : (name ++ post).head?.any Text.isSpaceOrTab = false)
      (hname : ∀ c ∈ name, isNameChar c = true) (hpost : post.head?.any isNameChar = false) :
      NamesModule (lead ++ (name ++ post)) name
  | group {lead g skip name post : Text} (hlead : ∀ c ∈ lead, Text.isSpaceOrTab c = true)
      (hgroup : BraceGroup g) (hskip : ∀ c ∈ skip, Text.isSpaceOrTab c = true)
      (hstop : (name ++ post).head?.any Text.isSpaceOrTab = false)
      (hname : ∀ c ∈ name, isNameChar c = true) (hpost : post.head?.any isNameChar = false) :
      NamesModule (lead ++ (g ++ (skip ++ (name ++ post)))) name

theorem moduleArgument_eq_iff {rest name : Text} :
    moduleArgument rest = name ↔ NamesModule rest name := by
  rw [moduleArgument_eq, modulePlace]
  constructor
  · intro hname
    obtain ⟨lead, hrest, hlead, hstop⟩ :=
      Text.dropWhile_eq_iff.mp (rfl : rest.dropWhile Text.isSpaceOrTab = _)
    rw [hrest]
    generalize rest.dropWhile Text.isSpaceOrTab = t at hname hstop ⊢
    cases hplace : behindGroup? Text.isSpaceOrTab t with
    | none =>
        rw [hplace, Option.getD_none] at hname
        obtain ⟨post, rfl, hchars, hpost⟩ := Text.takeWhile_eq_iff.mp hname
        exact .bare hlead (behindGroup?_eq_none_iff.mp hplace) hstop hchars hpost
    | some u =>
        rw [hplace, Option.getD_some] at hname
        obtain ⟨g, skip, rfl, hgroup, hskip, hstop'⟩ := behindGroup?_eq_some_iff.mp hplace
        obtain ⟨post, rfl, hchars, hpost⟩ := Text.takeWhile_eq_iff.mp hname
        exact .group hlead hgroup hskip hstop' hchars hpost
  · rintro (⟨hlead, hgroup, hstop, hchars, hpost⟩ | ⟨hlead, hgroup, hskip, hstop, hchars, hpost⟩)
    · rw [Text.dropWhile_eq_iff.mpr ⟨_, rfl, hlead, hstop⟩, behindGroup?_eq_none_iff.mpr hgroup,
        Option.getD_none]
      exact Text.takeWhile_eq_iff.mpr ⟨_, rfl, hchars, hpost⟩
    · rename_i lead g skip post
      have hhead : (g ++ (skip ++ (name ++ post))).head?.any Text.isSpaceOrTab = false := by
        obtain ⟨u, rfl, -⟩ := braceGroup_iff.mp hgroup
        rfl
      rw [Text.dropWhile_eq_iff.mpr ⟨_, rfl, hlead, hhead⟩,
        behindGroup?_eq_some_iff.mpr ⟨g, skip, rfl, hgroup, hskip, hstop⟩, Option.getD_some]
      exact Text.takeWhile_eq_iff.mpr ⟨_, rfl, hchars, hpost⟩

/-! ## The identity of a file -/

/-- The type declarations of a text: where the tag of each ends, and the name that it gives. -/
def declarations (t : Text) : List (Nat × Text) :=
  (Tag.inText typedefWord t).filterMap fun r => (declaredType? r.2).map (r.1, ·)

theorem mem_declarations_iff {t : Text} {k : Nat} {name : Text} :
    (k, name) ∈ declarations t ↔
      ∃ rest, Tag.StandsAlone typedefWord t k rest ∧ DeclaresType rest name := by
  simp only [declarations, List.mem_filterMap, Option.map_eq_some_iff, Prod.mk.injEq]
  constructor
  · rintro ⟨⟨k, rest⟩, hmem, name, hname, rfl, rfl⟩
    exact ⟨rest, (Tag.mem_inText_iff (by decide)).mp hmem, declaredType?_eq_some_iff.mp hname⟩
  · rintro ⟨rest, hstands, hdeclares⟩
    exact ⟨(k, rest), (Tag.mem_inText_iff (by decide)).mpr hstands, name,
      declaredType?_eq_some_iff.mpr hdeclares, rfl, rfl⟩

theorem pairwise_declarations (t : Text) :
    (declarations t).Pairwise fun a b => a.1 < b.1 := by
  rw [declarations, List.pairwise_filterMap]
  refine (Tag.pairwise_inText (by decide) t).imp fun {r r'} hlt a ha a' ha' => ?_
  obtain ⟨name, -, rfl⟩ := Option.map_eq_some_iff.mp ha
  obtain ⟨name', -, rfl⟩ := Option.map_eq_some_iff.mp ha'
  exact hlt

theorem flatMap_declaredTypes (t : Text) :
    ((DocComment.scan t).flatMap fun c => declaredTypes c.text) =
      (declarations t).map Prod.snd := by
  simp only [declarations, Tag.inText, inComments, declaredTypes, List.map_flatMap,
    List.filterMap_flatMap, List.filterMap_map, List.map_filterMap, Function.comp_def,
    Option.map_map, Option.map_id']

theorem firstModuleTag?_eq (t : Text) :
    FileIdentity.firstModuleTag? (DocComment.scan t) =
      (Tag.inText moduleWord t).head?.map fun r => moduleArgument r.2 := by
  simp only [FileIdentity.firstModuleTag?, moduleTag?, Tag.inText, inComments, List.map_flatMap,
    List.map_map, List.head?_flatMap, List.head?_map, List.map_findSome?, Function.comp_def,
    Option.map_map]

namespace Session

variable {scope : Scope} {view : View} {s : Session} {filename : Path} {t : Text} {log : Log}
  {info : FileIdentity}

/-- The identity of a file that was not met is what the given text says. -/
theorem meets_identity_of_source (hnew : s.cached? scope filename = none) (t : Text) :
    (identity scope view filename (some t)).Meets s fun r _ =>
      r = FileIdentity.ofText scope.roots (scope.normalize filename) t := by
  have hnew' : s.cache.get? (scope.normalize filename) = none := hnew
  unfold identity
  apply Op.meets_get_bind
  rw [hnew']
  show (Op.ofExcept _ >>= _ : Op Session FileIdentity).Meets s _
  refine Op.meets_ofExcept_bind (fun e he => he.symm) fun info hinfo => ?_
  apply Op.meets_modify_bind
  apply Op.meets_log_bind
  exact Op.meets_pure hinfo.symm

/-- What a file declares when it is met for the first time with the text `t`, whatever the session
and the disk are. Its type names are those that a standing `@typedef` gives in its comment, in the
order of the tags. The first standing `@module` decides its module: the name there, or the path when
there is no name; without such a tag the file has no module. -/
theorem identity_declares (hnew : s.cached? scope filename = none)
    (h : (identity scope view filename (some t) log s).answer = .ok info) :
    info.path = scope.normalize filename ∧
      (∃ decls : List (Nat × Text), decls.Pairwise (fun a b => a.1 < b.1) ∧
        (∀ k name, (k, name) ∈ decls ↔
          ∃ rest, Tag.StandsAlone typedefWord t k rest ∧ DeclaresType rest name) ∧
        info.typeNames = decls.map Prod.snd) ∧
      ((∀ k rest, ¬Tag.StandsAlone moduleWord t k rest) ∧
          info.moduleId = [] ∧ info.hasModuleTag = false ∨
        ∃ k rest name, Tag.StandsAlone moduleWord t k rest ∧
          (∀ k' rest', Tag.StandsAlone moduleWord t k' rest' → k ≤ k') ∧
          NamesModule rest name ∧ info.hasModuleTag = true ∧
          if name = [] then FileIdentity.derivedId scope.roots info.path = .ok info.moduleId
          else info.moduleId = name) := by
  have htext : FileIdentity.ofText scope.roots (scope.normalize filename) t = .ok info :=
    (meets_identity_of_source hnew t log).symm.trans h
  obtain ⟨id, rfl, hnone, hsome⟩ := FileIdentity.exists_of_ofText htext
  rw [firstModuleTag?_eq] at hnone hsome ⊢
  refine ⟨rfl, ⟨declarations t, pairwise_declarations t, fun _ _ => mem_declarations_iff,
    flatMap_declaredTypes t⟩, ?_⟩
  have hat : '@' ∉ moduleWord := by decide
  have hmem : ∀ k rest, (k, rest) ∈ Tag.inText moduleWord t ↔
      Tag.StandsAlone moduleWord t k rest := fun _ _ => Tag.mem_inText_iff hat
  have hordered := Tag.pairwise_inText hat t
  cases htags : Tag.inText moduleWord t with
  | nil =>
      rw [htags] at hnone hmem
      exact .inl ⟨fun k rest hstands => by simpa using (hmem k rest).mpr hstands, hnone rfl, rfl⟩
  | cons first others =>
      rw [htags] at hsome hmem hordered
      refine .inr ⟨first.1, first.2, moduleArgument first.2, (hmem _ _).mp List.mem_cons_self,
        fun k' rest' hstands => ?_, moduleArgument_eq_iff.mp rfl, rfl, hsome _ rfl⟩
      rcases List.mem_cons.mp ((hmem k' rest').mpr hstands) with rfl | hothers
      · exact Nat.le_refl _
      · exact Nat.le_of_lt ((List.pairwise_cons.mp hordered).1 _ hothers)

/-- Tags that identifiers touch, tags cut off by the end of their comment, a tag in an unclosed
brace, and two module tags. -/
def tangledText : Text :=
  "/** x@typedef \x7bn\x7d N @typedef \x7ba\x7bb\x7d\x7d A @typedef\n\x7bc\x7d\tB.d. ".toList ++
    "@typedef \x7bd\x7d */ D /**/ @module no /** @typedefs \x7be\x7d E ".toList ++
    "@module \x7bf\x7d m/1 @typedef \x7bg @typedef \x7bh\x7d H */ /** @module z */".toList

set_option maxRecDepth 100000 in
theorem tangledText_declares :
    (identity Batch.sampleScope emptied Batch.samplePath (some tangledText) [] .fresh).answer =
        .ok ⟨Batch.samplePath, "m/1".toList, [['A'], "B.d".toList, ['H']], true⟩ ∧
      ∃ k rest, Tag.StandsAlone moduleWord tangledText k rest ∧
        NamesModule rest "m/1".toList := by
  have hanswer : (identity Batch.sampleScope emptied Batch.samplePath (some tangledText) []
      .fresh).answer =
        .ok ⟨Batch.samplePath, "m/1".toList, [['A'], "B.d".toList, ['H']], true⟩ := by
    decide +kernel
  obtain ⟨-, -, hmodule⟩ := identity_declares (by decide +kernel) hanswer
  rcases hmodule with ⟨-, -, htag⟩ | ⟨k, rest, name, hstands, -, hnames, -, hid⟩
  · simp at htag
  · split at hid
    · exact absurd hid (by decide +kernel)
    · obtain rfl : "m/1".toList = name := hid
      exact ⟨hanswer, k, rest, hstands, hnames⟩

end Session

end DocRefs
