import Travsr.Core.ImportNormalisation
import Travsr.Indexer.ImportLinks

namespace Travsr.Indexer

open Travsr.Core Core.Text Travsr.PluginHost StackWalk

/-! ### What a specifier denotes -/

def isRelative (module : List Char) : Bool :=
  "./".toList.isPrefixOf module || "../".toList.isPrefixOf module

/-- The way to the file: from the importer's directory along a relative specifier, or from the
root along the path an alias gives. -/
def segmentsOf (dir : List (List Char)) (aliases : List (String × String)) (module : List Char) :
    Option (List (List Char)) :=
  if isRelative module then some (dir ++ splitOn (· = '/') module)
  else (rewriteImportAlias module aliases).map (splitOn (· = '/'))

def wayEnd (segments : List (List Char)) : Option (List (List Char)) :=
  walk [] (segments.map segmentMove)

/-- The files a specifier may denote: the end of its way with an extension of the importer's
family. -/
def Denotes (aliases : List (String × String)) (importer : String) (module file : List Char) :
    Prop :=
  ∃ dir segments names ext, parentOf (components importer.toList) = some dir ∧
    segmentsOf dir aliases module = some segments ∧ wayEnd segments = some names ∧
    ext ∈ importCandidates (extOf importer) ∧ file = joinSlash names ++ '.' :: ext.toList

/-- The edges of an import with the specifier lead to the files it denotes and to no others, under
every numbering of the nodes. -/
def LinksDenoted (aliases : List (String × String)) (importer : String) (module : List Char) :
    Prop :=
  ∀ (env : Env) (corpus : String) (n : Node), specifier "import" "import:" n = some module →
    ∀ e, e ∈ linkImportsAliased env corpus aliases importer [n] ↔
      ∃ file, Denotes aliases importer module file ∧
        e = resolvesToEdge n.id (fileNodeId env corpus "typescript" (String.ofList file))

/-- The way stays below the root and ends at a name without a dot behind its first character, with
no backslash on it. -/
def WellSpelled (names : List (List Char)) : Prop :=
  (∀ w ∈ names, '\\' ∉ w) ∧ ∃ name, names.getLast? = some name ∧ '.' ∉ name.drop 1

/-- Whatever the specifier leads to is well spelled. -/
def Linkable (aliases : List (String × String)) (importer : String) (module : List Char) : Prop :=
  ∀ dir segments, parentOf (components importer.toList) = some dir →
    segmentsOf dir aliases module = some segments →
    ∃ names, wayEnd segments = some names ∧ WellSpelled names

/-! ### Normalisation -/

theorem components_ne_nil {path w : List Char} (h : w ∈ components path) : w ≠ [] := by
  have hfilter {pieces : List (List Char)} (hw : w ∈ pieces.filter isNamed) : w ≠ [] :=
    (isNamed_iff.mp (List.of_mem_filter hw)).1
  unfold components at h
  split at h
  · rcases List.mem_cons.mp h with rfl | hrest
    · simp
    · exact hfilter hrest
  · exact hfilter h

theorem reduce_components (path : List Char) (moves : List (Move (List Char))) :
    reduce ((components path).map segmentMove ++ moves) =
      reduce ((splitOn (· = '/') path).map segmentMove ++ moves) := by
  unfold components
  split
  · rename_i rest hsplit
    rw [hsplit]
    exact reduce_filter rest moves
  · exact reduce_filter _ moves

theorem foldl_of_walk {parts kept names : List (List Char)} (hne : ∀ w ∈ parts, w ≠ [])
    (h : walk kept (parts.map segmentMove) = some names) :
    parts.foldl (fun kept w =>
      if w = ['.'] then kept else if w = ['.', '.'] then kept.dropLast else kept ++ [w]) kept =
        names := by
  induction parts generalizing kept with
  | nil => exact Option.some.inj h
  | cons w parts ih =>
    obtain ⟨next, hstep, hrest⟩ := Option.bind_eq_some_iff.mp h
    have hw : w ≠ [] := hne w List.mem_cons_self
    rw [List.foldl_cons, ← ih (fun v hv => hne v (List.mem_cons_of_mem w hv)) hrest]
    congr 1
    by_cases hdot : w = ['.']
    · rw [if_pos hdot]
      rw [segmentMove, if_pos (Or.inr hdot)] at hstep
      exact Option.some.inj hstep
    · rw [if_neg hdot]
      rw [segmentMove, if_neg (by simp [hw, hdot])] at hstep
      by_cases hup : w = ['.', '.']
      · rw [if_pos hup]
        rw [if_pos hup, step] at hstep
        split_ifs at hstep
        exact Option.some.inj hstep
      · rw [if_neg hup]
        rw [if_neg hup] at hstep
        exact Option.some.inj hstep

theorem normalize_of_wayEnd {parts names : List (List Char)} (hne : ∀ w ∈ parts, w ≠ [])
    (h : wayEnd parts = some names) : normalizeVnamePath parts = names := foldl_of_walk hne h

theorem wayEnd_components (dir : List (List Char)) (path : List Char) :
    wayEnd (dir ++ components path) = wayEnd (dir ++ splitOn (· = '/') path) := by
  have hreduce : reduce ((components path).map segmentMove) =
      reduce ((splitOn (· = '/') path).map segmentMove) := by
    have h := reduce_components path []
    rwa [List.append_nil, List.append_nil] at h
  rw [wayEnd, wayEnd, List.map_append, List.map_append, walk_append, walk_append]
  congr 1
  funext kept
  rw [walk_eq, walk_eq, hreduce]

/-! ### File names -/

theorem afterLast_char {c : Char} {s rest : List Char} (h : afterLast [c] s = some rest) :
    ∃ before, s = before ++ c :: rest := by
  induction s with
  | nil => simp [afterLast] at h
  | cons d s ih =>
    rw [afterLast] at h
    split at h
    · rename_i rest' hrest
      obtain ⟨before, hs⟩ := ih (hrest.trans h)
      exact ⟨d :: before, by rw [hs]; rfl⟩
    · split_ifs at h with hpre
      have hd : c = d := by simpa using hpre
      have hrest : s = rest := by simpa using h
      exact ⟨[], by rw [hd, hrest]; rfl⟩

theorem not_mem_of_afterLast {c : Char} {s : List Char} (h : afterLast [c] s = none) : c ∉ s := by
  induction s with
  | nil => simp
  | cons d s ih =>
    rw [afterLast] at h
    split at h
    · cases h
    · rename_i hnone
      split_ifs at h with hpre
      have hd : c ≠ d := fun heq => hpre (by simp [heq])
      exact fun hmem => (List.mem_cons.mp hmem).elim hd (ih hnone)

theorem fileStem_cases (name : List Char) :
    (fileStem name = name ∧ '.' ∉ name.drop 1) ∨
      ∃ ext, name = fileStem name ++ '.' :: ext ∧ '.' ∈ name.drop 1 := by
  unfold fileStem rsplitOnce
  cases hlast : afterLast ['.'] name with
  | none =>
    have hno := not_mem_of_afterLast hlast
    exact Or.inl ⟨rfl, fun hmem => hno (List.mem_of_mem_drop hmem)⟩
  | some ext =>
    obtain ⟨stem, hname⟩ := afterLast_char hlast
    have htake : name.take (name.length - ext.length - 1) = stem := by
      have hlen : name.length - ext.length - 1 = stem.length := by
        rw [hname]
        simp only [List.length_append, List.length_cons]
        omega
      rw [hlen, hname, List.take_left]
    rw [Option.map_some]
    dsimp only
    rw [htake]
    cases stem with
    | nil =>
      refine Or.inl ⟨if_pos rfl, ?_⟩
      intro hmem
      rw [hname] at hlast hmem
      have hext : '.' ∈ ext := hmem
      rw [List.nil_append, afterLast] at hlast
      cases hrest : afterLast ['.'] ext with
      | none => exact not_mem_of_afterLast hrest hext
      | some rest =>
        rw [hrest] at hlast
        obtain ⟨before, hshort⟩ := afterLast_char hrest
        have hlen := congrArg List.length hshort
        rw [Option.some.inj hlast] at hlen
        simp at hlen
        omega
    | cons c stem =>
      refine Or.inr ⟨ext, ?_, ?_⟩
      · rw [if_neg (by simp)]
        exact hname
      · rw [hname]
        simp

theorem joinSlash_snoc (init : List (List Char)) (name : List Char) :
    joinSlash (init ++ [name]) = joinSlash (init ++ [[]]) ++ name := by
  rw [joinSlash_concat, List.nil_append]

theorem mem_joinSlash_of_mem {names : List (List Char)} {w : List Char} {c : Char} (hw : w ∈ names)
    (hc : c ∈ w) : c ∈ joinSlash names := by
  induction names with
  | nil => simp at hw
  | cons v names ih =>
    by_cases hnil : names = []
    · subst hnil
      rw [List.mem_singleton] at hw
      subst hw
      rwa [joinSlash, List.intercalate_singleton]
    · rw [joinSlash, List.intercalate_cons_of_ne_nil hnil, List.mem_append, List.mem_append]
      rcases List.mem_cons.mp hw with rfl | hrest
      · exact Or.inl (Or.inl hc)
      · exact Or.inr (ih hrest)

theorem pathText_eq (parts : List (List Char)) :
    (pathText parts).toList = slashed (joinSlash parts) := String.toList_ofList

theorem importCandidates_plain {importerExt ext : String} (h : ext ∈ importCandidates importerExt) :
    '.' ∉ ext.toList ∧ '\\' ∉ ext.toList := by
  have hall : ∀ ext ∈ ["js", "jsx", "mjs", "cjs", "ts", "tsx"],
      '.' ∉ ext.toList ∧ '\\' ∉ ext.toList := by
    intro ext hext
    simp only [List.mem_cons, List.not_mem_nil, or_false] at hext
    rcases hext with rfl | rfl | rfl | rfl | rfl | rfl <;> decide
  apply hall
  unfold importCandidates at h
  split_ifs at h
  · simp only [List.mem_cons, List.not_mem_nil, or_false] at h ⊢
    tauto
  · simp only [List.mem_cons, List.not_mem_nil, or_false] at h ⊢
    tauto

/-! ### The candidates of a specifier -/

variable {aliases : List (String × String)} {importer : String} {module : List Char}

theorem mem_linkImportsAliased {env : Env} {corpus : String} {n : Node}
    (hn : specifier "import" "import:" n = some module) {e : Edge} :
    e ∈ linkImportsAliased env corpus aliases importer [n] ↔
      ∃ dir base ext, parentOf (components importer.toList) = some dir ∧
        resolveSpecifier dir aliases module = some base ∧
        ext ∈ importCandidates (extOf importer) ∧
        e = resolvesToEdge n.id
          (fileNodeId env corpus "typescript" (pathText (withExtension ext base))) := by
  unfold linkImportsAliased
  cases hdir : parentOf (components importer.toList) with
  | none => simp
  | some dir =>
    simp only [linkEach, List.flatMap_singleton, hn, Option.bind_some]
    cases hbase : resolveSpecifier dir aliases module with
    | none => simp [hbase]
    | some base =>
      simp only [Option.map_some, Option.getD_some, List.map_map, List.mem_map, Function.comp_apply]
      constructor
      · rintro ⟨ext, hext, rfl⟩
        exact ⟨dir, base, ext, rfl, hbase, hext, rfl⟩
      · rintro ⟨dir', base', ext, hdir', hbase', hext, rfl⟩
        rw [← Option.some.inj hdir', hbase] at hbase'
        rw [← Option.some.inj hbase']
        exact ⟨ext, hext, rfl⟩

theorem parentOf_ne_nil {path : List Char} {dir : List (List Char)}
    (h : parentOf (components path) = some dir) : ∀ w ∈ dir, w ≠ [] := by
  unfold parentOf at h
  split_ifs at h
  rw [← Option.some.inj h]
  exact fun w hw => components_ne_nil (List.dropLast_subset _ hw)

theorem resolveSpecifier_def (dir : List (List Char)) :
    resolveSpecifier dir aliases module =
      if isRelative module then some (normalizeVnamePath (dir ++ components module))
      else (rewriteImportAlias module aliases).map fun p => normalizeVnamePath (components p) := rfl

/-- The code goes the specifier's way, and stays at the root where the way climbs above it. -/
theorem resolveSpecifier_eq {dir : List (List Char)} (hdir : ∀ w ∈ dir, w ≠ []) :
    (segmentsOf dir aliases module = none ∧ resolveSpecifier dir aliases module = none) ∨
      ∃ segments parts, segmentsOf dir aliases module = some segments ∧
        resolveSpecifier dir aliases module = some (normalizeVnamePath parts) ∧
        (∀ w ∈ parts, w ≠ []) ∧ wayEnd parts = wayEnd segments := by
  by_cases hrel : isRelative module = true
  · apply Or.inr
    refine ⟨dir ++ splitOn (· = '/') module, dir ++ components module, ?_, ?_, ?_, ?_⟩
    · rw [segmentsOf, if_pos hrel]
    · rw [resolveSpecifier_def, if_pos hrel]
    · intro w hw
      rcases List.mem_append.mp hw with hdirw | hmod
      · exact hdir w hdirw
      · exact components_ne_nil hmod
    · exact wayEnd_components dir module
  · cases halias : rewriteImportAlias module aliases with
    | none =>
      apply Or.inl
      rw [segmentsOf, if_neg hrel, halias, resolveSpecifier_def, if_neg hrel, halias]
      exact ⟨rfl, rfl⟩
    | some path =>
      apply Or.inr
      refine ⟨splitOn (· = '/') path, components path, ?_, ?_, fun w hw => components_ne_nil hw, ?_⟩
      · rw [segmentsOf, if_neg hrel, halias, Option.map_some]
      · rw [resolveSpecifier_def, if_neg hrel, halias, Option.map_some]
      · exact wayEnd_components [] path

theorem withExtension_concat (ext : String) (init : List (List Char)) (name : List Char) :
    withExtension ext (init ++ [name]) = init ++ [fileStem name ++ '.' :: ext.toList] := by
  rw [withExtension, List.getLast?_concat]
  dsimp only
  rw [List.dropLast_concat]

theorem pathText_of_wellSpelled {names : List (List Char)} (h : WellSpelled names) {ext : String}
    (hext : '\\' ∉ ext.toList) : (pathText (withExtension ext names)).toList =
      joinSlash names ++ '.' :: ext.toList := by
  obtain ⟨hback, name, hlast, hdot⟩ := h
  obtain ⟨init, rfl⟩ := List.getLast?_eq_some_iff.mp hlast
  have hstem : fileStem name = name := by
    rcases fileStem_cases name with hself | ⟨e, -, hmem⟩
    · exact hself.1
    · exact absurd hmem hdot
  rw [pathText_eq, withExtension_concat, hstem, joinSlash_concat]
  apply slashed_of_not_mem
  intro hmem
  rcases mem_joinSlash hmem with hslash | ⟨w, hw, hc⟩
  · exact absurd hslash (by decide)
  · rcases List.mem_append.mp hw with hinit | hnew
    · exact hback w (List.mem_append_left _ hinit) hc
    · rw [List.mem_singleton.mp hnew, List.mem_append, List.mem_cons] at hc
      rcases hc with hname | hsep | hin
      · exact hback name (by simp) hname
      · exact absurd hsep (by decide)
      · exact hext hin

theorem backslash_not_mem_slashed (s : List Char) : '\\' ∉ slashed s := by
  intro h
  obtain ⟨c, -, hc⟩ := List.mem_map.mp h
  split_ifs at hc with hback
  · exact absurd hc (by decide)
  · exact hback hc

theorem wellSpelled_of_pathText {names : List (List Char)} {ext ext' : String}
    (hext : '.' ∉ ext.toList) (h : (pathText (withExtension ext names)).toList =
      joinSlash names ++ '.' :: ext'.toList) : WellSpelled names := by
  rw [pathText_eq] at h
  have hback : ∀ w ∈ names, '\\' ∉ w := by
    intro w hw hc
    apply backslash_not_mem_slashed (joinSlash (withExtension ext names))
    rw [h]
    exact List.mem_append_left _ (mem_joinSlash_of_mem hw hc)
  refine ⟨hback, ?_⟩
  cases List.eq_nil_or_concat names with
  | inl hnil =>
    subst hnil
    simp [withExtension, slashed, joinSlash] at h
  | inr hconcat =>
    obtain ⟨init, name, hnames⟩ := hconcat
    rw [List.concat_eq_append] at hnames
    subst hnames
    refine ⟨name, List.getLast?_concat, ?_⟩
    rcases fileStem_cases name with hself | ⟨e, hname, -⟩
    · exact hself.2
    -- A stem cut short leaves room for no second dot.
    · rw [withExtension_concat, joinSlash_snoc init (fileStem name ++ '.' :: ext.toList),
        joinSlash_snoc init name, slashed, List.map_append] at h
      have hinit : (joinSlash (init ++ [[]])).map (fun c => if c = '\\' then '/' else c) =
          joinSlash (init ++ [[]]) := by
        apply slashed_of_not_mem
        intro hmem
        rcases mem_joinSlash hmem with hslash | ⟨w, hw, hc⟩
        · exact absurd hslash (by decide)
        · rcases List.mem_append.mp hw with hin | hnil
          · exact hback w (List.mem_append_left _ hin) hc
          · simp [List.mem_singleton.mp hnil] at hc
      have hstem : (fileStem name).map (fun c => if c = '\\' then '/' else c) = fileStem name := by
        apply slashed_of_not_mem
        intro hmem
        apply hback name (by simp)
        rw [hname]
        exact List.mem_append_left _ hmem
      rw [hinit, List.append_assoc, List.append_cancel_left_eq, List.map_append, hstem] at h
      conv_rhs at h => rw [hname]
      rw [List.append_assoc, List.append_cancel_left_eq, List.map_cons, List.cons_append] at h
      have htail := List.tail_eq_of_cons_eq h
      exfalso
      apply hext
      have hdot : '.' ∈ ext.toList.map (fun c => if c = '\\' then '/' else c) := by
        rw [htail]
        simp
      obtain ⟨c, hc, heq⟩ := List.mem_map.mp hdot
      split_ifs at heq
      · exact absurd heq (by decide)
      · rwa [← heq]

theorem linksDenoted_of_linkable (h : Linkable aliases importer module) :
    LinksDenoted aliases importer module := by
  intro env corpus n hn e
  rw [mem_linkImportsAliased hn]
  have hfile {names : List (List Char)} {ext : String} (hwell : WellSpelled names)
      (hext : ext ∈ importCandidates (extOf importer)) :
      String.ofList (joinSlash names ++ '.' :: ext.toList) = pathText (withExtension ext names) := by
    rw [← pathText_of_wellSpelled hwell (importCandidates_plain hext).2, String.ofList_toList]
  constructor
  · rintro ⟨dir, base, ext, hdir, hbase, hext, rfl⟩
    rcases resolveSpecifier_eq (parentOf_ne_nil hdir) with hnone | ⟨segments, parts, hseg, hres,
      hne, hway⟩
    · rw [hnone.2] at hbase
      exact absurd hbase.symm (by simp)
    · obtain ⟨names, hnames, hwell⟩ := h dir segments hdir hseg
      rw [hres, normalize_of_wayEnd hne (hway.trans hnames)] at hbase
      refine ⟨_, ⟨dir, segments, names, ext, hdir, hseg, hnames, hext, rfl⟩, ?_⟩
      rw [hfile hwell hext, Option.some.inj hbase]
  · rintro ⟨file, ⟨dir, segments, names, ext, hdir, hseg, hnames, hext, rfl⟩, rfl⟩
    rcases resolveSpecifier_eq (parentOf_ne_nil hdir) with hnone | ⟨segments', parts, hseg', hres,
      hne, hway⟩
    · rw [hnone.1] at hseg
      exact absurd hseg.symm (by simp)
    · rw [hseg, Option.some.injEq] at hseg'
      subst hseg'
      obtain ⟨names', hnames', hwell⟩ := h dir segments hdir hseg
      have heq : names = names' := Option.some.inj (hnames.symm.trans hnames')
      rw [normalize_of_wayEnd hne (hway.trans hnames)] at hres
      refine ⟨dir, names, ext, hdir, hres, hext, ?_⟩
      rw [hfile (heq ▸ hwell) hext]

def importOf (module : List Char) : Node :=
  ⟨0, ⟨"", "", "", "", String.ofList ("import:".toList ++ module)⟩, "import", "", none, none, .none⟩

theorem specifier_importOf (module : List Char) :
    specifier "import" "import:" (importOf module) = some module := by
  have htext : (importOf module).vname.signature.toList = "import:".toList ++ module :=
    String.toList_ofList
  rw [specifier, htext, stripPrefix_append]
  rfl

theorem linkable_of_linksDenoted (h : LinksDenoted aliases importer module) :
    Linkable aliases importer module := by
  intro dir segments hdir hseg
  obtain ⟨ext, hext⟩ : ∃ ext, ext ∈ importCandidates (extOf importer) := by
    unfold importCandidates
    split_ifs <;> exact ⟨_, List.mem_cons_self⟩
  rcases resolveSpecifier_eq (parentOf_ne_nil hdir) with hnone | ⟨segments', parts, hseg', hres,
    hne, hway⟩
  · rw [hnone.1] at hseg
    exact absurd hseg.symm (by simp)
  · rw [hseg, Option.some.injEq] at hseg'
    subst hseg'
    let path := pathText (withExtension ext (normalizeVnamePath parts))
    let env : Env := ⟨fun v => if v.path = path then 1 else 0, id, fun _ => false⟩
    have hmem := (h env "" (importOf module) (specifier_importOf module) _).mp
      ((mem_linkImportsAliased (specifier_importOf module)).mpr
        ⟨dir, _, ext, hdir, hres, hext, rfl⟩)
    obtain ⟨file, ⟨dir', segments', names, ext', hdir', hseg', hnames, -, rfl⟩, hedge⟩ := hmem
    rw [hdir, Option.some.injEq] at hdir'
    subst hdir'
    rw [hseg, Option.some.injEq] at hseg'
    subst hseg'
    refine ⟨names, hnames, ?_⟩
    have hid : (if path = path then 1 else 0) =
        if String.ofList (joinSlash names ++ '.' :: ext'.toList) = path then 1 else 0 :=
      congrArg Edge.dst hedge
    rw [if_pos rfl] at hid
    have hpath : String.ofList (joinSlash names ++ '.' :: ext'.toList) = path := by
      by_contra hne'
      rw [if_neg hne'] at hid
      exact absurd hid (by decide)
    have htext := congrArg String.toList hpath
    rw [String.toList_ofList] at htext
    have hbase : normalizeVnamePath parts = names := normalize_of_wayEnd hne (hway.trans hnames)
    have heq : (pathText (withExtension ext names)).toList =
        joinSlash names ++ '.' :: ext'.toList := by
      rw [htext, ← hbase]
    exact wellSpelled_of_pathText (importCandidates_plain hext).1 heq

/-- The imports of a file are linked one by one, and the edges of one lead to the files its
specifier denotes exactly when whatever the specifier leads to is well spelled. -/
theorem linksDenoted_iff (aliases : List (String × String)) (importer : String)
    (module : List Char) :
    (∀ (env : Env) (corpus : String) (nodes : List Node),
      linkImportsAliased env corpus aliases importer nodes =
        nodes.flatMap fun n => linkImportsAliased env corpus aliases importer [n]) ∧
    (LinksDenoted aliases importer module ↔ Linkable aliases importer module) := by
  refine ⟨?_, linkable_of_linksDenoted, linksDenoted_of_linkable⟩
  intro env corpus nodes
  unfold linkImportsAliased
  cases parentOf (components importer.toList) with
  | none => simp
  | some dir => simp [linkEach]

/-- A dotted name loses what stands behind its last dot, and a way above the root is linked. -/
theorem dotted_name_is_cut_short :
    ¬ LinksDenoted [] "src/app.ts" "./user.service".toList ∧
      ¬ LinksDenoted [] "src/app.ts" "../../lib".toList := by
  constructor
  · intro h
    obtain ⟨names, hnames, -, name, hname, hdot⟩ := linkable_of_linksDenoted h ["src".toList]
      ["src".toList, ".".toList, "user.service".toList] (by decide) (by decide)
    have hend : names = ["src".toList, "user.service".toList] :=
      (Option.some.inj hnames).symm
    subst hend
    have hlast : name = "user.service".toList := (Option.some.inj hname).symm
    subst hlast
    exact hdot (by decide)
  · intro h
    obtain ⟨names, hnames, -⟩ := linkable_of_linksDenoted h ["src".toList]
      ["src".toList, "..".toList, "..".toList, "lib".toList] (by decide) (by decide)
    cases hnames

end Travsr.Indexer
