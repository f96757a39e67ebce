import Travsr.Core.ImporterDirectory

namespace Travsr.Core

open Text StackWalk

/-! ### When the resolved path is the normalised one -/

/-- The levels a specifier climbs above where it starts, and the names it goes down to from there. -/
def climb (spec : List Char) : Nat × List (List Char) :=
  reduce ((splitOn isSeparator spec).map segmentMove)

/-- The importer's directory is spelled by names alone; or the specifier climbs past all of its
spelling; or it leads from an absolute directory exactly to the root. -/
def CleanlySpelled (importerPath spec : List Char) : Prop :=
  AllNames (importerParts importerPath) ∨
    (importerParts importerPath).length < (climb spec).1 ∨
    ∃ names, importerParts importerPath = [] :: names ∧ AllNames names ∧
      climb spec = (names.length, [])

section

variable {importerPath spec : List Char}

theorem resolve_climb : resolveRelativeToImporter importerPath spec =
    if (climb spec).1 ≤ (importerParts importerPath).length then
      some (joinSlash ((importerParts importerPath).take
        ((importerParts importerPath).length - (climb spec).1) ++ (climb spec).2))
    else none := by
  rw [resolve_eq, walk_eq, climb]
  split_ifs <;> rfl

theorem lexical_climb : lexical importerPath spec =
    if (reduce ((importerParts importerPath).map segmentMove)).1 = 0 then
      walk (reduce ((importerParts importerPath).map segmentMove)).2
        ((splitOn isSeparator spec).map segmentMove)
    else none := by
  rw [lexical_eq, walk_empty]
  split_ifs <;> rfl

theorem lexical_names {parts : List (List Char)} (h : lexical importerPath spec = some parts) :
    AllNames parts ∧ SeparatorFree parts := by
  rw [lexical] at h
  split_ifs at h
  rw [Option.some.injEq] at h
  subst h
  have hmem : SeparatorFree (directory importerPath ++ splitOn isSeparator spec) := by
    intro w hw
    rcases List.mem_append.mp hw with hdir | hseg
    · rw [← filter_importerParts] at hdir
      exact separatorFree_importerParts importerPath w (List.mem_of_mem_filter hdir)
    · exact separatorFree_splitOn spec w hseg
  exact ⟨fun w hw => (reduce_names hw).1, fun w hw => hmem w (reduce_names hw).2⟩

theorem lexical_of_allNames (h : AllNames (importerParts importerPath)) :
    lexical importerPath spec =
      walk (importerParts importerPath) ((splitOn isSeparator spec).map segmentMove) := by
  rw [lexical_climb, map_segmentMove h, reduce_down, if_pos rfl]

theorem lexical_of_climb (h : (importerParts importerPath).length < (climb spec).1) :
    lexical importerPath spec = none := by
  have hle := reduce_length_le ((importerParts importerPath).map segmentMove)
  rw [List.length_map] at hle
  rw [lexical_climb, walk_eq, ← climb]
  split_ifs with hzero hin
  · omega
  · rfl
  · rfl

theorem allNames_of_length {segs : List (List Char)}
    (h : (reduce (segs.map segmentMove)).2.length = segs.length) : AllNames segs := by
  obtain ⟨parts, hparts⟩ := exists_eq_map_of_reduce_length (by rw [h, List.length_map])
  exact allNames_of_map hparts

theorem resolve_of_cleanlySpelled (h : CleanlySpelled importerPath spec) :
    resolveRelativeToImporter importerPath spec = (lexical importerPath spec).map joinSlash := by
  rcases h with hnames | hclimb | ⟨names, hroot, hnames, hexact⟩
  · rw [lexical_of_allNames hnames, resolve_eq]
  · rw [lexical_of_climb hclimb, resolve_climb, if_neg (by omega)]
    rfl
  · have hreduce : reduce ((importerParts importerPath).map segmentMove) = (0, names) := by
      have hstay : segmentMove [] = .stay := rfl
      rw [hroot, List.map_cons, hstay, reduce, map_segmentMove hnames, reduce_down]
    have hlexical : lexical importerPath spec = some [] := by
      rw [lexical_climb, hreduce, if_pos rfl, walk_eq, ← climb, hexact]
      simp
    rw [hlexical, resolve_climb, hexact, hroot]
    simp [joinSlash]

theorem cleanlySpelled_of_resolve
    (h : resolveRelativeToImporter importerPath spec = (lexical importerPath spec).map joinSlash) :
    CleanlySpelled importerPath spec := by
  by_cases hclimb : (importerParts importerPath).length < (climb spec).1
  · exact Or.inr (Or.inl hclimb)
  · rw [resolve_climb, if_pos (by omega)] at h
    obtain ⟨parts, hparts, hjoin⟩ := Option.map_eq_some_iff.mp h.symm
    obtain ⟨hnames, hfree⟩ := lexical_names hparts
    rw [lexical_climb, walk_eq, ← climb] at hparts
    split_ifs at hparts with hzero hin
    rw [Option.some.injEq] at hparts
    have hcode : SeparatorFree ((importerParts importerPath).take
        ((importerParts importerPath).length - (climb spec).1) ++ (climb spec).2) := by
      intro w hw
      rcases List.mem_append.mp hw with hdir | hseg
      · exact separatorFree_importerParts importerPath w (List.mem_of_mem_take hdir)
      · exact separatorFree_splitOn spec w (reduce_names hseg).2
    have hnonempty : parts ≠ [[]] := by
      rintro rfl
      exact (hnames [] (List.mem_singleton.mpr rfl)).1 rfl
    rcases joinSlash_inj hcode hfree hnonempty hjoin.symm with hsame | ⟨hone, hnil⟩
    · have hlen := congrArg List.length (hsame.trans hparts.symm)
      simp only [List.length_append, List.length_take] at hlen
      exact Or.inl (allNames_of_length (by omega))
    · rw [hnil, List.append_eq_nil_iff] at hparts
      obtain ⟨htake, hrest⟩ := hparts
      rw [hrest, List.append_nil] at hone
      have hlen := congrArg List.length hone
      have hlen' := congrArg List.length htake
      simp only [List.length_take, List.length_singleton, List.length_nil] at hlen hlen'
      cases hdir : importerParts importerPath with
      | nil => simp [hdir] at hlen
      | cons head names =>
        rw [hdir] at hone hlen hin hlen' hzero hclimb
        rw [List.length_cons] at hlen hclimb hone
        have hhead : head = [] := by
          have hone' : (climb spec).1 = names.length := by omega
          rw [hone', Nat.add_sub_cancel_left] at hone
          simpa using hone
        subst hhead
        have hstay : segmentMove [] = .stay := rfl
        rw [List.map_cons, hstay, reduce] at hin hlen'
        refine Or.inr (Or.inr ⟨names, hdir, allNames_of_length (by omega), ?_⟩)
        exact Prod.ext (by show (climb spec).1 = names.length; omega) hrest

/-! ### Ruby's extension -/

/-- The path of the file that `RubyResolver` looks for. -/
def rubyPath (importerPath spec : List Char) : Option (List Char) :=
  (resolveRelativeToImporter importerPath (stripRb spec)).map (· ++ rb)

/-- The specifier ends in a bare extension: what stands before it in the last segment is no name,
so that the segment is lost when the extension is stripped. -/
def BareExtension (importerPath spec : List Char) : Prop :=
  rb <:+ spec ∧ ∃ before x parts, splitOn isSeparator (stripRb spec) = before ++ [x] ∧
    ¬IsName x ∧ walk (importerParts importerPath) (before.map segmentMove) = some parts ∧
      ¬(x = [] ∧ parts = [])

theorem splitOn_append {p : Char → Bool} {t : List Char} (ht : ∀ c ∈ t, p c = false)
    (s : List Char) : ∃ before x, splitOn p s = before ++ [x] ∧
      splitOn p (s ++ t) = before ++ [x ++ t] := by
  induction s with
  | nil => exact ⟨[], [], rfl, splitOn_of_not_mem ht⟩
  | cons c s ih =>
    obtain ⟨before, x, hs, hst⟩ := ih
    rw [List.cons_append, splitOn, splitOn, hs, hst]
    by_cases hc : p c = true
    · rw [if_pos hc, if_pos hc]
      exact ⟨[] :: before, x, rfl, rfl⟩
    · rw [if_neg hc, if_neg hc]
      cases before with
      | nil => exact ⟨[], c :: x, rfl, rfl⟩
      | cons w ws => exact ⟨(c :: w) :: ws, x, rfl, rfl⟩

theorem stripRb_append {spec : List Char} (h : rb <:+ spec) : stripRb spec ++ rb = spec := by
  obtain ⟨stem, rfl⟩ := h
  rw [stripRb, if_pos (List.isSuffixOf_iff_suffix.mpr (List.suffix_append stem rb)),
    List.length_append, Nat.add_sub_cancel, List.take_left]

theorem stripRb_of_not_suffix {spec : List Char} (h : ¬rb <:+ spec) : stripRb spec = spec := by
  rw [stripRb, if_neg (fun hsuffix => h (List.isSuffixOf_iff_suffix.mp hsuffix))]

theorem not_isSeparator_rb : ∀ c ∈ rb, isSeparator c = false := by
  intro c hc
  have hall : rb.all (fun c => !isSeparator c) = true := by decide
  simpa using List.all_eq_true.mp hall c hc

theorem splitOn_stripRb {spec : List Char} (h : rb <:+ spec) :
    ∃ before x, splitOn isSeparator (stripRb spec) = before ++ [x] ∧
      splitOn isSeparator spec = before ++ [x ++ rb] := by
  obtain ⟨before, x, hstem, hspec⟩ := splitOn_append not_isSeparator_rb (stripRb spec)
  rw [stripRb_append h] at hspec
  exact ⟨before, x, hstem, hspec⟩

theorem isName_append_rb (x : List Char) : IsName (x ++ rb) := by
  have hlen : 3 ≤ (x ++ rb).length := by simp [rb]
  refine ⟨?_, ?_, ?_⟩ <;> intro heq <;> rw [heq] at hlen <;> simp at hlen

/-- The extension goes on the last component; where there is none it stands alone. -/
def withRb (parts : List (List Char)) : List (List Char) :=
  match parts.getLast? with
  | some w => parts.dropLast ++ [w ++ rb]
  | none => [rb]

theorem withRb_concat (parts : List (List Char)) (w : List Char) :
    withRb (parts ++ [w]) = parts ++ [w ++ rb] := by
  simp [withRb]

theorem joinSlash_concat (parts : List (List Char)) (w t : List Char) :
    joinSlash (parts ++ [w]) ++ t = joinSlash (parts ++ [w ++ t]) := by
  induction parts with
  | nil => simp [joinSlash]
  | cons v parts ih =>
    rw [List.cons_append, List.cons_append, joinSlash, joinSlash,
      List.intercalate_cons_of_ne_nil (by simp), List.intercalate_cons_of_ne_nil (by simp)]
    rw [List.append_assoc, ← joinSlash, ih]
    rfl

theorem joinSlash_withRb (parts : List (List Char)) :
    joinSlash parts ++ rb = joinSlash (withRb parts) := by
  rcases List.eq_nil_or_concat parts with rfl | ⟨init, w, rfl⟩
  · rfl
  · rw [List.concat_eq_append, withRb_concat, joinSlash_concat]

theorem separatorFree_withRb {parts : List (List Char)} (h : SeparatorFree parts) :
    SeparatorFree (withRb parts) := by
  have hrb := not_isSeparator_rb
  rcases List.eq_nil_or_concat parts with rfl | ⟨init, w, rfl⟩
  · intro v hv
    have hv' : v = rb := by simpa [withRb] using hv
    rw [hv']
    exact hrb
  · rw [List.concat_eq_append] at h ⊢
    rw [withRb_concat]
    intro v hv
    rcases List.mem_append.mp hv with hinit | hlast
    · exact h v (List.mem_append_left _ hinit)
    · rw [List.mem_singleton.mp hlast]
      intro c hc
      rcases List.mem_append.mp hc with hcw | hcrb
      · exact h w (List.mem_append_right _ (List.mem_singleton.mpr rfl)) c hcw
      · exact hrb c hcrb

theorem length_withRb (parts : List (List Char)) :
    (withRb parts).length = max 1 parts.length := by
  rcases List.eq_nil_or_concat parts with rfl | ⟨init, w, rfl⟩
  · rfl
  · rw [List.concat_eq_append, withRb_concat]
    simp

theorem joinSlash_inj_of_ne_nil {parts names : List (List Char)} (hparts : SeparatorFree parts)
    (hnames : SeparatorFree names) (hp : parts ≠ []) (hn : names ≠ [])
    (h : joinSlash parts = joinSlash names) : parts = names := by
  rw [← splitOn_joinSlash hp hparts, h, splitOn_joinSlash hn hnames]

theorem separatorFree_walk {parts segs rest : List (List Char)} (hparts : SeparatorFree parts)
    (hsegs : SeparatorFree segs) (h : walk parts (segs.map segmentMove) = some rest) :
    SeparatorFree rest := by
  rw [walk_eq] at h
  split_ifs at h
  rw [Option.some.injEq] at h
  subst h
  intro w hw
  rcases List.mem_append.mp hw with htake | hname
  · exact hparts w (List.mem_of_mem_take htake)
  · exact hsegs w (reduce_names hname).2

theorem step_eq_withRb_iff {x : List Char} {parts : List (List Char)} (hparts : SeparatorFree parts)
    (hx : ∀ c ∈ x, isSeparator c = false) :
    ((step parts (segmentMove x)).map fun rest => joinSlash rest ++ rb) =
        some (joinSlash (parts ++ [x ++ rb])) ↔ IsName x ∨ (x = [] ∧ parts = []) := by
  have hrb := not_isSeparator_rb
  have htarget : SeparatorFree (parts ++ [x ++ rb]) := by
    intro w hw
    rcases List.mem_append.mp hw with hin | hlast
    · exact hparts w hin
    · rw [List.mem_singleton.mp hlast]
      intro c hc
      rcases List.mem_append.mp hc with hcx | hcrb
      · exact hx c hcx
      · exact hrb c hcrb
  -- a shorter path is another one
  have hshort : ∀ rest, SeparatorFree rest → joinSlash rest ++ rb = joinSlash (parts ++ [x ++ rb]) →
      withRb rest = parts ++ [x ++ rb] := by
    intro rest hrest heq
    rw [joinSlash_withRb] at heq
    apply joinSlash_inj_of_ne_nil (separatorFree_withRb hrest) htarget _ (by simp) heq
    apply List.ne_nil_of_length_pos
    rw [length_withRb]
    omega
  by_cases hname : IsName x
  · rw [segmentMove_of_isName hname, step]
    simp [hname, joinSlash_concat]
  · by_cases hup : x = ['.', '.']
    · have hne : x ≠ [] := by rw [hup]; simp
      rw [hup, segmentMove, if_neg (by simp), if_pos rfl, step, ← hup]
      simp only [hname, hne, false_and, or_self, iff_false]
      rcases List.eq_nil_or_concat parts with rfl | ⟨init, w, rfl⟩
      · simp
      · rw [List.concat_eq_append] at *
        rw [if_neg (by simp), List.dropLast_concat, Option.map_some, Option.some.injEq]
        intro heq
        have hlen := congrArg List.length (hshort init (fun v hv =>
          hparts v (List.mem_append_left _ hv)) heq)
        rw [length_withRb] at hlen
        simp only [List.length_append, List.length_singleton] at hlen
        omega
    · have hstay : segmentMove x = .stay := by
        rw [segmentMove, if_pos]
        by_contra hneither
        rw [not_or] at hneither
        exact hname ⟨hneither.1, hneither.2, hup⟩
      rw [hstay, step, Option.map_some, Option.some.injEq]
      simp only [hname, false_or]
      apply Iff.intro
      · intro heq
        have hsame := hshort parts hparts heq
        rcases List.eq_nil_or_concat parts with rfl | ⟨init, w, rfl⟩
        · have hx' : rb = x ++ rb := by simpa [withRb] using hsame
          have hlen := congrArg List.length hx'
          rw [List.length_append] at hlen
          exact ⟨List.eq_nil_of_length_eq_zero (by omega), rfl⟩
        · have hlen := congrArg List.length hsame
          rw [length_withRb] at hlen
          simp only [List.concat_eq_append, List.length_append, List.length_singleton] at hlen
          omega
      · rintro ⟨rfl, rfl⟩
        rfl

variable {importerPath spec : List Char}

theorem rubyPath_iff_of_names (hnames : AllNames (importerParts importerPath))
    (hsuffix : rb <:+ spec) :
    rubyPath importerPath spec = lexicalRb importerPath spec ↔
      ¬BareExtension importerPath spec := by
  obtain ⟨before, x, hstem, hspec⟩ := splitOn_stripRb hsuffix
  have hmove : segmentMove (x ++ rb) = .down (x ++ rb) := segmentMove_of_isName (isName_append_rb x)
  have hcode : rubyPath importerPath spec =
      (walk (importerParts importerPath) (before.map segmentMove)).bind fun parts =>
        (step parts (segmentMove x)).map fun rest => joinSlash rest ++ rb := by
    rw [rubyPath, resolve_eq, hstem, List.map_append, walk_append]
    cases walk (importerParts importerPath) (before.map segmentMove) with
    | none => rfl
    | some parts =>
      simp only [List.map_cons, List.map_nil, walk_cons, walk_nil, Option.bind_some]
      cases step parts (segmentMove x) <;> rfl
  have hwanted : lexicalRb importerPath spec =
      (walk (importerParts importerPath) (before.map segmentMove)).map fun parts =>
        joinSlash (parts ++ [x ++ rb]) := by
    rw [lexicalRb, lexical_of_allNames hnames, hspec, List.map_append, walk_append]
    cases walk (importerParts importerPath) (before.map segmentMove) with
    | none => rfl
    | some parts =>
      simp only [List.map_cons, List.map_nil, walk_cons, walk_nil, Option.bind_some, hmove, step,
        Option.map_some, if_pos (List.isSuffixOf_iff_suffix.mpr hsuffix)]
  have hbare : BareExtension importerPath spec ↔ ∃ parts,
      walk (importerParts importerPath) (before.map segmentMove) = some parts ∧
        ¬(IsName x ∨ (x = [] ∧ parts = [])) := by
    apply Iff.intro
    · rintro ⟨-, before', x', parts, hstem', hx, hwalk, hnot⟩
      rw [hstem] at hstem'
      obtain ⟨rfl, hxx⟩ := List.append_inj' hstem' rfl
      rw [List.singleton_inj] at hxx
      subst hxx
      exact ⟨parts, hwalk, not_or.mpr ⟨hx, hnot⟩⟩
    · rintro ⟨parts, hwalk, hnot⟩
      rw [not_or] at hnot
      exact ⟨hsuffix, before, x, parts, hstem, hnot.1, hwalk, hnot.2⟩
  have hfree : SeparatorFree (before ++ [x]) := hstem ▸ separatorFree_splitOn (stripRb spec)
  rw [hcode, hwanted, hbare]
  cases hwalk : walk (importerParts importerPath) (before.map segmentMove) with
  | none => simp
  | some parts =>
    have hparts := separatorFree_walk (separatorFree_importerParts importerPath)
      (fun w hw => hfree w (List.mem_append_left _ hw)) hwalk
    have hx : ∀ c ∈ x, isSeparator c = false := hfree x (List.mem_append_right _ (List.mem_singleton.mpr rfl))
    rw [Option.bind_some, Option.map_some, step_eq_withRb_iff hparts hx]
    simp only [Option.some.injEq, exists_eq_left', not_not]

theorem rubyPath_of_climb (hsuffix : rb <:+ spec)
    (hclimb : (importerParts importerPath).length < (climb spec).1) :
    rubyPath importerPath spec = lexicalRb importerPath spec ∧
      ¬BareExtension importerPath spec := by
  obtain ⟨before, x, hstem, hspec⟩ := splitOn_stripRb hsuffix
  have hmove : segmentMove (x ++ rb) = .down (x ++ rb) := segmentMove_of_isName (isName_append_rb x)
  have hwalk : walk (importerParts importerPath) (before.map segmentMove) = none := by
    have hlevels : (climb spec).1 = (reduce (before.map segmentMove)).1 := by
      rw [climb, hspec, List.map_append, List.map_cons, List.map_nil, hmove, reduce_concat_down]
    rw [walk_eq, if_neg (by omega)]
  apply And.intro
  · rw [rubyPath, lexicalRb, lexical_of_climb hclimb, resolve_eq, hstem, List.map_append,
      walk_append, hwalk]
    rfl
  · rintro ⟨-, before', x', parts, hstem', -, hwalk', -⟩
    rw [hstem] at hstem'
    obtain ⟨rfl, -⟩ := List.append_inj' hstem' rfl
    rw [hwalk] at hwalk'
    simp at hwalk'

theorem climb_names_ne_nil (hsuffix : rb <:+ spec) : (climb spec).2 ≠ [] := by
  obtain ⟨before, x, -, hspec⟩ := splitOn_stripRb hsuffix
  have hmove : segmentMove (x ++ rb) = .down (x ++ rb) := segmentMove_of_isName (isName_append_rb x)
  rw [climb, hspec, List.map_append, List.map_cons, List.map_nil, hmove, reduce_concat_down]
  simp

theorem rubyPath_iff (hclean : CleanlySpelled importerPath spec) :
    rubyPath importerPath spec = lexicalRb importerPath spec ↔
      ¬BareExtension importerPath spec := by
  by_cases hsuffix : rb <:+ spec
  · rcases hclean with hnames | hclimb | ⟨names, -, -, hexact⟩
    · exact rubyPath_iff_of_names hnames hsuffix
    · have h := rubyPath_of_climb hsuffix hclimb
      exact iff_of_true h.1 h.2
    · exact absurd (congrArg Prod.snd hexact) (climb_names_ne_nil hsuffix)
  · have hbare : ¬BareExtension importerPath spec := fun h => hsuffix h.1
    have hsame : rubyPath importerPath spec = lexicalRb importerPath spec := by
      rw [rubyPath, lexicalRb, stripRb_of_not_suffix hsuffix, resolve_of_cleanlySpelled hclean,
        Option.map_map]
      have hno : rb.isSuffixOf spec = false := by
        rw [Bool.eq_false_iff]
        exact fun h => hsuffix (List.isSuffixOf_iff_suffix.mp h)
      simp only [hno]
      rfl
    exact iff_of_true hsame hbare

end

/-! ### The resolvers -/

/-- What normalisation asks of the resolvers, for an importer and a specifier written in it. -/
structure Normalised (importerPath spec : List Char) : Prop where
  path : resolveRelativeToImporter importerPath spec = (lexical importerPath spec).map joinSlash
  components : ∀ path, resolveRelativeToImporter importerPath spec = some path →
    ∃ parts, path = joinSlash parts ∧ AllNames parts ∧ SeparatorFree parts
  cpp : ∀ inc, trimQuotes inc = spec → ∀ target,
    CppResolver.resolvesTo ("import:".toList ++ inc) importerPath target = true ↔
      inc.head? ≠ some '<' ∧ (lexical importerPath spec).map joinSlash = some (slashed target)
  ruby : ∀ target, RubyResolver.resolvesTo ("import:".toList ++ spec) importerPath target = true ↔
    "gem:".toList.isPrefixOf spec = false ∧ lexicalRb importerPath spec = some (slashed target)
  unique : ∀ importSig target target',
    (CppResolver.resolvesTo importSig importerPath target = true →
      CppResolver.resolvesTo importSig importerPath target' = true →
        slashed target = slashed target') ∧
    (RubyResolver.resolvesTo importSig importerPath target = true →
      RubyResolver.resolvesTo importSig importerPath target' = true →
        slashed target = slashed target')

theorem stripPrefix_append (pat : String) (s : List Char) :
    stripPrefix pat (pat.toList ++ s) = some s := by
  rw [stripPrefix, if_pos (List.isPrefixOf_iff_prefix.mpr (List.prefix_append _ _)), List.drop_left]

theorem cppResolver_iff (importerPath inc target : List Char) :
    CppResolver.resolvesTo ("import:".toList ++ inc) importerPath target = true ↔
      inc.head? ≠ some '<' ∧
        resolveRelativeToImporter importerPath (trimQuotes inc) = some (slashed target) := by
  rw [CppResolver.resolvesTo, stripPrefix_append]
  simp only
  by_cases hsystem : inc.head? = some '<'
  · simp [hsystem]
  · rw [if_neg hsystem]
    cases resolveRelativeToImporter importerPath (trimQuotes inc) with
    | none => simp
    | some resolved => simp [hsystem, eq_comm]

theorem rubyResolver_iff (importerPath spec target : List Char) :
    RubyResolver.resolvesTo ("import:".toList ++ spec) importerPath target = true ↔
      "gem:".toList.isPrefixOf spec = false ∧ rubyPath importerPath spec = some (slashed target) := by
  rw [RubyResolver.resolvesTo, stripPrefix_append, rubyPath]
  simp only
  cases "gem:".toList.isPrefixOf spec with
  | true => simp
  | false =>
    cases resolveRelativeToImporter importerPath (stripRb spec) with
    | none => simp
    | some resolved => simp [eq_comm]

theorem resolvers_unique (importSig importerPath target target' : List Char) :
    (CppResolver.resolvesTo importSig importerPath target = true →
      CppResolver.resolvesTo importSig importerPath target' = true →
        slashed target = slashed target') ∧
    (RubyResolver.resolvesTo importSig importerPath target = true →
      RubyResolver.resolvesTo importSig importerPath target' = true →
        slashed target = slashed target') := by
  by_cases hpre : "import:".toList <+: importSig
  · obtain ⟨spec, rfl⟩ := hpre
    rw [cppResolver_iff, cppResolver_iff, rubyResolver_iff, rubyResolver_iff]
    apply And.intro
    · rintro ⟨-, h⟩ ⟨-, h'⟩
      exact Option.some.inj (h.symm.trans h')
    · rintro ⟨-, h⟩ ⟨-, h'⟩
      exact Option.some.inj (h.symm.trans h')
  · have hnone : stripPrefix "import:" importSig = none := by
      rw [stripPrefix, if_neg (fun h => hpre (List.isPrefixOf_iff_prefix.mp h))]
    simp [CppResolver.resolvesTo, RubyResolver.resolvesTo, hnone]

theorem resolve_separatorFree {importerPath spec path : List Char}
    (h : resolveRelativeToImporter importerPath spec = some path) :
    ∃ parts, path = joinSlash parts ∧ SeparatorFree parts := by
  rw [resolve_eq] at h
  obtain ⟨parts, hwalk, rfl⟩ := Option.map_eq_some_iff.mp h
  exact ⟨parts, rfl, separatorFree_walk (separatorFree_importerParts importerPath)
    (separatorFree_splitOn spec) hwalk⟩

theorem slashed_rubyPath {importerPath spec path : List Char}
    (h : rubyPath importerPath spec = some path) : slashed path = path := by
  obtain ⟨resolved, hresolved, rfl⟩ := Option.map_eq_some_iff.mp h
  obtain ⟨parts, rfl, hfree⟩ := resolve_separatorFree hresolved
  rw [joinSlash_withRb, slashed_joinSlash (separatorFree_withRb hfree)]

theorem slashed_lexicalRb {importerPath spec path : List Char}
    (h : lexicalRb importerPath spec = some path) : slashed path = path := by
  obtain ⟨parts, hparts, rfl⟩ := Option.map_eq_some_iff.mp h
  have hfree := (lexical_names hparts).2
  by_cases hsuffix : rb.isSuffixOf spec = true
  · rw [if_pos hsuffix, slashed_joinSlash hfree]
  · rw [if_neg hsuffix, joinSlash_withRb, slashed_joinSlash (separatorFree_withRb hfree)]

theorem rubyPath_eq_of_targets {importerPath spec : List Char}
    (h : ∀ target, rubyPath importerPath spec = some (slashed target) ↔
      lexicalRb importerPath spec = some (slashed target)) :
    rubyPath importerPath spec = lexicalRb importerPath spec := by
  cases hruby : rubyPath importerPath spec with
  | some path =>
    have hiff := h path
    rw [slashed_rubyPath hruby] at hiff
    exact (hiff.mp hruby).symm
  | none =>
    cases hlexical : lexicalRb importerPath spec with
    | none => rfl
    | some path =>
      have hiff := h path
      rw [slashed_lexicalRb hlexical] at hiff
      rw [← hruby]
      exact hiff.mpr hlexical

/-- The resolvers normalise a specifier exactly when the importer's directory is cleanly spelled
for it and Ruby's extension does not stand alone in it. -/
theorem importResolvers_normalise_iff (importerPath spec : List Char) :
    Normalised importerPath spec ↔ CleanlySpelled importerPath spec ∧
      ("gem:".toList.isPrefixOf spec = true ∨ ¬BareExtension importerPath spec) := by
  apply Iff.intro
  · intro h
    have hclean := cleanlySpelled_of_resolve h.path
    refine ⟨hclean, ?_⟩
    by_cases hgem : "gem:".toList.isPrefixOf spec = true
    · exact Or.inl hgem
    · rw [Bool.not_eq_true] at hgem
      have htargets : ∀ target, rubyPath importerPath spec = some (slashed target) ↔
          lexicalRb importerPath spec = some (slashed target) := by
        intro target
        have hruby := h.ruby target
        rw [rubyResolver_iff] at hruby
        simpa only [hgem, true_and] using hruby
      exact Or.inr ((rubyPath_iff hclean).mp (rubyPath_eq_of_targets htargets))
  · rintro ⟨hclean, hextension⟩
    have hpath := resolve_of_cleanlySpelled hclean
    refine ⟨hpath, ?_, ?_, ?_, fun importSig => resolvers_unique importSig importerPath⟩
    · intro path hsome
      rw [hpath] at hsome
      obtain ⟨parts, hparts, rfl⟩ := Option.map_eq_some_iff.mp hsome
      exact ⟨parts, rfl, lexical_names hparts⟩
    · rintro inc rfl target
      rw [cppResolver_iff, hpath]
    · intro target
      rw [rubyResolver_iff]
      apply and_congr_right
      intro hgem
      rcases hextension with hgem' | hbare
      · rw [hgem] at hgem'
        simp at hgem'
      · rw [(rubyPath_iff hclean).mpr hbare]

/-- A file `.rb` next to the importer: the extension is all of its name, and the file beside the
directory is taken instead. A leading `.` in an importer's path stays in what it includes. -/
theorem extension_alone_leaves_directory :
    ¬Normalised "app/main.rb".toList ".rb".toList ∧
      RubyResolver.resolvesTo "import:.rb".toList "app/main.rb".toList "app.rb".toList = true ∧
      RubyResolver.resolvesTo "import:.rb".toList "app/main.rb".toList "app/.rb".toList = false ∧
      CppResolver.resolvesTo "import:b.h".toList "./src/a.c".toList "src/b.h".toList = false := by
  refine ⟨?_, by decide +kernel, by decide +kernel, by decide +kernel⟩
  intro h
  have hruby := h.ruby "app/.rb".toList
  have hcode : RubyResolver.resolvesTo ("import:".toList ++ ".rb".toList) "app/main.rb".toList
      "app/.rb".toList = false := by decide +kernel
  have hwanted : "gem:".toList.isPrefixOf ".rb".toList = false ∧
      lexicalRb "app/main.rb".toList ".rb".toList = some (slashed "app/.rb".toList) := by
    decide +kernel
  rw [hcode] at hruby
  exact absurd (hruby.mpr hwanted) (by simp)

end Travsr.Core
