import Mathlib.Data.Countable.Basic
import Mathlib.Logic.Equiv.List
import Travsr.Indexer.SpecifierTargets

namespace Travsr.Indexer

open Travsr.Core Core.Text Travsr.PluginHost StackWalk

/-! ### Crates -/

/-- The name of a module: an identifier other than the two that name no module. -/
def IsModName (name : List Char) : Prop :=
  name ≠ [] ∧ (∀ c ∈ name, c ∉ ['/', '\\', '.', ':', '#', '*']) ∧
    name ≠ "super".toList ∧ name ≠ "mod".toList

abbrev ModName := { name : List Char // IsModName name }

abbrev ModPath := List ModName

def namesOf (m : ModPath) : List (List Char) := m.map Subtype.val

/-- `foo.rs` for the module at `foo`. -/
def flatFile (base : List (List Char)) : List (List Char) :=
  base.dropLast ++ [base.getLastD [] ++ ".rs".toList]

/-- `foo/mod.rs` for the module at `foo`. -/
def modFile (base : List (List Char)) : List (List Char) := base ++ ["mod.rs".toList]

/-- The file of a module: the crate root, a `mod.rs`, or a file beside the module's directory. -/
def moduleFile (dir : List (List Char)) (root : List Char) (inModRs : ModPath → Bool)
    (m : ModPath) : List (List Char) :=
  if m = [] then dir ++ [root]
  else if inModRs m then modFile (dir ++ namesOf m)
  else flatFile (dir ++ namesOf m)

/-- A crate laid out by the file rules: where its root stands and which file modules it has. Where a
module's file may stand, no other module's file stands. -/
structure Crate where
  dir : List (List Char)
  dirPlain : AllNames dir ∧ SeparatorFree dir
  root : List Char
  isRoot : root = "lib.rs".toList ∨ root = "main.rs".toList
  modules : List ModPath
  inModRs : ModPath → Bool
  rootless : [] ∉ modules
  sole : ∀ m ∈ modules, ∀ m' ∈ [] :: modules,
    moduleFile dir root inModRs m' = flatFile (dir ++ namesOf m) ∨
      moduleFile dir root inModRs m' = modFile (dir ++ namesOf m) → m' = m

def Crate.fileOf (c : Crate) : ModPath → List (List Char) := moduleFile c.dir c.root c.inModRs

def filePath (parts : List (List Char)) : String := String.ofList (joinSlash parts)

/-- A name as a declaration spells it: a raw identifier with `r#`. -/
structure Spelled where
  name : ModName
  raw : Bool

def Spelled.text (x : Spelled) : List Char :=
  if x.raw then 'r' :: '#' :: x.name.val else x.name.val

/-- `mod x;`, or a `use` path that begins with `self` or `super` and names a module. -/
inductive ModDecl where
  | item (x : Spelled)
  | useOf (viaSelf : Bool) (supers : Nat) (path : List Spelled) (nonempty : path ≠ [])
      (anchored : viaSelf = true ∨ 0 < supers)

/-- The module that Rust resolves a declaration to, from the module it stands in. -/
def ModDecl.target (d : ModDecl) (here : ModPath) : Option ModPath :=
  match d with
  | item x => some (here ++ [x.name])
  | useOf _ supers path _ _ =>
    if supers ≤ here.length then some (here.take (here.length - supers) ++ path.map Spelled.name)
    else none

/-- Names with `::` between them. -/
def joinColons (segments : List (List Char)) : List Char := List.intercalate [':', ':'] segments

def superSegments (supers : Nat) : List (List Char) := List.replicate supers "super".toList

def ModDecl.kind : ModDecl → String
  | item _ => "file-module"
  | useOf _ _ _ _ _ => "import"

def ModDecl.signature : ModDecl → List Char
  | item x => "filemod:".toList ++ x.text
  | useOf viaSelf supers path _ _ =>
    "use:".toList ++ joinColons ((if viaSelf then ["self".toList] else []) ++
      superSegments supers ++ path.map Spelled.text)

/-- A declaration in a file of the crate, inside the inline modules of `scope`, that names a file
module. -/
structure Site (c : Crate) where
  file : ModPath
  fileMem : file ∈ [] :: c.modules
  scope : ModPath
  decl : ModDecl
  target : ModPath
  resolves : decl.target (file ++ scope) = some target
  targetMem : target ∈ c.modules

/-- The declaration is linked to the file of the module it names and to no other module's file,
under every numbering that tells the nodes apart. -/
def FollowsTree {c : Crate} (s : Site c) : Prop :=
  ∀ (env : Env) (corpus : String) (n : Node), Function.Injective env.vnameId →
    n.kind = s.decl.kind → n.vname.signature = String.ofList s.decl.signature →
    ∀ m ∈ [] :: c.modules,
      resolvesToEdge n.id (fileNodeId env corpus "rust" (filePath (c.fileOf m))) ∈
        linkImportsRust env corpus (filePath (c.fileOf s.file)) [n] ↔ m = s.target

/-- No name is raw, and no `super` follows a `self`. -/
def ModDecl.Plain : ModDecl → Prop
  | item x => x.raw = false
  | useOf viaSelf supers path _ _ => (viaSelf = true → supers = 0) ∧ ∀ x ∈ path, x.raw = false

/-- The declaration stands at the top of a crate root or of a `mod.rs`. -/
def InOwnDirectory {c : Crate} (s : Site c) : Prop :=
  (s.file = [] ∨ c.inModRs s.file = true) ∧ s.scope = []

/-! ### Names as path components -/

theorem IsModName.isName {name : List Char} (h : IsModName name) : IsName name := by
  refine ⟨h.1, ?_, ?_⟩
  · rintro rfl
    exact h.2.1 '.' (by simp) (by simp)
  · rintro rfl
    exact h.2.1 '.' (by simp) (by simp)

theorem IsModName.separatorFree {name : List Char} (h : IsModName name) :
    ∀ c ∈ name, isSeparator c = false := by
  intro c hc
  have hno := h.2.1 c hc
  rw [← Bool.not_eq_true, isSeparator, Bool.or_eq_true, decide_eq_true_eq, decide_eq_true_eq]
  rintro (rfl | rfl)
  · exact hno (by simp)
  · exact hno (by simp)

/-- A component that a declaration spells: a name, perhaps raw, or `super`. -/
def IsSegment (w : List Char) : Prop :=
  IsName w ∧ (∀ c ∈ w, c ∉ ['/', '\\', '.', ':', '*'])

theorem IsSegment.separatorFree {w : List Char} (h : IsSegment w) :
    ∀ c ∈ w, isSeparator c = false := by
  intro c hc
  have hno := h.2 c hc
  rw [← Bool.not_eq_true, isSeparator, Bool.or_eq_true, decide_eq_true_eq, decide_eq_true_eq]
  rintro (rfl | rfl)
  · exact hno (by simp)
  · exact hno (by simp)

theorem Spelled.isSegment (x : Spelled) : IsSegment x.text := by
  have hname : IsSegment x.name.val := by
    refine ⟨x.name.property.isName, fun c hc hmem => x.name.property.2.1 c hc ?_⟩
    simp only [List.mem_cons, List.not_mem_nil, or_false] at hmem ⊢
    tauto
  unfold Spelled.text
  split_ifs
  · refine ⟨⟨by simp, by simp, by simp⟩, ?_⟩
    intro c hc
    rcases List.mem_cons.mp hc with rfl | hc
    · decide
    · rcases List.mem_cons.mp hc with rfl | hc
      · decide
      · exact hname.2 c hc
  · exact hname

theorem isSegment_super : IsSegment "super".toList := by
  refine ⟨⟨by decide, by decide, by decide⟩, by simp⟩

def PlainPath (parts : List (List Char)) : Prop := AllNames parts ∧ SeparatorFree parts

theorem PlainPath.append {parts more : List (List Char)} (h : PlainPath parts)
    (hmore : PlainPath more) : PlainPath (parts ++ more) := by
  constructor
  · intro w hw
    rcases List.mem_append.mp hw with hin | hin
    · exact h.1 w hin
    · exact hmore.1 w hin
  · intro w hw
    rcases List.mem_append.mp hw with hin | hin
    · exact h.2 w hin
    · exact hmore.2 w hin

theorem PlainPath.of_segments {parts : List (List Char)} (h : ∀ w ∈ parts, IsSegment w) :
    PlainPath parts := ⟨fun w hw => (h w hw).1, fun w hw => (h w hw).separatorFree⟩

theorem PlainPath.subset {parts more : List (List Char)} (h : PlainPath parts)
    (hsub : ∀ w ∈ more, w ∈ parts) : PlainPath more :=
  ⟨fun w hw => h.1 w (hsub w hw), fun w hw => h.2 w (hsub w hw)⟩

theorem plainPath_namesOf (m : ModPath) : PlainPath (namesOf m) := by
  constructor
  · intro w hw
    obtain ⟨x, -, rfl⟩ := List.mem_map.mp hw
    exact x.property.isName
  · intro w hw
    obtain ⟨x, -, rfl⟩ := List.mem_map.mp hw
    exact x.property.separatorFree

/-! ### Reading a path back -/

theorem components_joinSlash {parts : List (List Char)} (h : PlainPath parts) (hne : parts ≠ []) :
    components (joinSlash parts) = parts := by
  have hnamed : parts.filter isNamed = parts := by
    rw [List.filter_eq_self]
    intro w hw
    exact isNamed_iff.mpr ⟨(h.1 w hw).1, (h.1 w hw).2.1⟩
  unfold components
  rw [splitOn_joinSlash hne h.2]
  split
  · rename_i rest
    exact absurd rfl (h.1 ['.'] List.mem_cons_self).2.1
  · exact hnamed

theorem components_segment {w : List Char} (h : IsSegment w) : components w = [w] := by
  have hself : joinSlash [w] = w := List.intercalate_singleton
  have hplain : PlainPath [w] := by
    apply PlainPath.of_segments
    intro v hv
    rwa [List.mem_singleton.mp hv]
  rw [← hself, components_joinSlash hplain (by simp), hself]

theorem flatMap_components {parts : List (List Char)} (h : ∀ w ∈ parts, IsSegment w) :
    parts.flatMap components = parts := by
  induction parts with
  | nil => rfl
  | cons w parts ih =>
    rw [List.flatMap_cons, components_segment (h w List.mem_cons_self),
      ih fun v hv => h v (List.mem_cons_of_mem w hv)]
    rfl

theorem normalize_plain {parts : List (List Char)} (h : PlainPath parts) :
    normalizeVnamePath parts = parts := by
  apply normalize_of_wayEnd fun w hw => (h.1 w hw).1
  rw [wayEnd, map_segmentMove h.1, walk_empty, reduce_down, if_pos rfl]

theorem pathText_plain {parts : List (List Char)} (h : SeparatorFree parts) :
    pathText parts = filePath parts := by
  rw [← String.toList_inj, pathText_eq, slashed_joinSlash h, filePath, String.toList_ofList]

theorem filePath_inj {parts more : List (List Char)} (h : PlainPath parts) (hmore : PlainPath more)
    (hne : parts ≠ []) (hne' : more ≠ []) (heq : filePath parts = filePath more) : parts = more := by
  have htext := congrArg String.toList heq
  rw [filePath, filePath, String.toList_ofList, String.toList_ofList] at htext
  exact joinSlash_inj_of_ne_nil h.2 hmore.2 hne hne' htext

/-! ### Reading a `use` path back -/

theorem splitColons_cons {c : Char} (hc : ¬ ':' = c) {cs w : List Char} {ws : List (List Char)}
    (h : splitColons cs = w :: ws) : splitColons (c :: cs) = (c :: w) :: ws := by
  rw [splitColons.eq_def]
  split
  · rename_i heq
    exact absurd heq (by simp)
  · rename_i heq
    rw [List.cons.injEq] at heq
    exact absurd heq.1.symm hc
  · rename_i _ heq
    rw [List.cons.injEq] at heq
    rw [← heq.2, ← heq.1, h]

theorem splitColons_of_not_mem {w : List Char} (h : ':' ∉ w) : splitColons w = [w] := by
  induction w with
  | nil => rfl
  | cons c w ih =>
    obtain ⟨hc, hw⟩ := not_or.mp (fun hor => h (List.mem_cons.mpr hor))
    exact splitColons_cons hc (ih hw)

theorem splitColons_append {w : List Char} (h : ':' ∉ w) (rest : List Char) :
    splitColons (w ++ ':' :: ':' :: rest) = w :: splitColons rest := by
  induction w with
  | nil => rfl
  | cons c w ih =>
    obtain ⟨hc, hw⟩ := not_or.mp (fun hor => h (List.mem_cons.mpr hor))
    exact splitColons_cons hc (ih hw)

theorem splitColons_joinColons {parts : List (List Char)} (hne : parts ≠ [])
    (h : ∀ w ∈ parts, ':' ∉ w) : splitColons (joinColons parts) = parts := by
  induction parts with
  | nil => exact absurd rfl hne
  | cons w parts ih =>
    by_cases hnil : parts = []
    · subst hnil
      rw [joinColons, List.intercalate_singleton]
      exact splitColons_of_not_mem (h w (by simp))
    · rw [joinColons, List.intercalate_cons_of_ne_nil hnil, List.append_assoc]
      have htail := ih hnil fun v hv => h v (List.mem_cons_of_mem w hv)
      rw [List.cons_append, List.cons_append, List.nil_append,
        splitColons_append (h w List.mem_cons_self)]
      rw [← joinColons, htail]

theorem joinColons_cons {w : List Char} {parts : List (List Char)} (hne : parts ≠ []) :
    joinColons (w :: parts) = w ++ ':' :: ':' :: joinColons parts := by
  rw [joinColons, List.intercalate_cons_of_ne_nil hne, List.append_assoc]
  rfl

/-- A path whose first segment is another one has no `super::` to strip. -/
theorem stripPrefix_super {parts : List (List Char)} (hne : parts ≠ [])
    (h : ∀ w ∈ parts, ':' ∉ w) (hhead : parts.head? ≠ some "super".toList) :
    stripPrefix "super::" (joinColons parts) = none := by
  rw [stripPrefix, if_neg]
  intro hpre
  obtain ⟨rest, hrest⟩ := List.isPrefixOf_iff_prefix.mp hpre
  have hsplit := splitColons_joinColons hne h
  have hsuper : joinColons parts = "super".toList ++ ':' :: ':' :: rest := by
    rw [← hrest]
    rfl
  rw [hsuper, splitColons_append (by decide)] at hsplit
  apply hhead
  rw [← hsplit]
  rfl

/-- Each `super::` goes one directory up, as long as there is one. -/
theorem stripSuper_segments (supers fuel : Nat) (hfuel : supers ≤ fuel)
    {parts : List (List Char)} (hne : parts ≠ []) (h : ∀ w ∈ parts, ':' ∉ w)
    (hhead : parts.head? ≠ some "super".toList) (base : List (List Char)) :
    stripSuper fuel (joinColons (superSegments supers ++ parts)) base =
      if supers ≤ base.length then some (joinColons parts, base.take (base.length - supers))
      else none := by
  induction supers generalizing fuel base with
  | zero =>
    have hstop : stripSuper fuel (joinColons parts) base = some (joinColons parts, base) := by
      cases fuel with
      | zero => rfl
      | succ fuel =>
        rw [stripSuper, stripPrefix_super hne h hhead]
    rw [superSegments, List.replicate_zero, List.nil_append, hstop, if_pos (Nat.zero_le _),
      Nat.sub_zero, List.take_length]
  | succ supers ih =>
    obtain ⟨fuel, rfl⟩ : ∃ f, fuel = f + 1 := ⟨fuel - 1, by omega⟩
    have hcons : joinColons (superSegments (supers + 1) ++ parts) =
        "super::".toList ++ joinColons (superSegments supers ++ parts) := by
      rw [superSegments, List.replicate_succ, List.cons_append, joinColons_cons (by simp [hne])]
      rfl
    rw [hcons, stripSuper, stripPrefix_append]
    dsimp only
    cases List.eq_nil_or_concat base with
    | inl hnil =>
      subst hnil
      rw [parentOf, if_pos rfl, if_neg (by simp)]
      rfl
    | inr hconcat =>
      obtain ⟨init, last, rfl⟩ := hconcat
      have hparent : parentOf (init.concat last) = some init := by
        rw [parentOf, if_neg (by simp), List.concat_eq_append, List.dropLast_concat]
      rw [hparent, Option.bind_some, ih fuel (by omega), List.concat_eq_append, List.length_append,
        List.length_singleton]
      by_cases hle : supers ≤ init.length
      · rw [if_pos hle, if_pos (by omega), List.take_append_of_le_length (by omega)]
        congr 3
        omega
      · rw [if_neg hle, if_neg (by omega)]

theorem Spelled.text_ne_super (x : Spelled) : x.text ≠ "super".toList := by
  unfold Spelled.text
  split_ifs
  · intro h
    exact absurd (List.head_eq_of_cons_eq h) (by decide)
  · exact x.name.property.2.2.1

theorem joinColons_ne_nil {parts : List (List Char)} (hne : parts ≠ [])
    (h : ∀ w ∈ parts, IsSegment w) : joinColons parts ≠ [] := by
  cases parts with
  | nil => exact absurd rfl hne
  | cons w parts =>
    have hw := (h w List.mem_cons_self).1.1
    by_cases hnil : parts = []
    · subst hnil
      rwa [joinColons, List.intercalate_singleton]
    · rw [joinColons_cons hnil]
      simp

theorem supers_le_length (supers : Nat) {parts : List (List Char)} (hne : parts ≠ []) :
    supers ≤ (joinColons (superSegments supers ++ parts)).length := by
  induction supers with
  | zero => exact Nat.zero_le _
  | succ supers ih =>
    rw [superSegments, List.replicate_succ, List.cons_append, joinColons_cons (by simp [hne])]
    have hlen : ("super".toList ++ ':' :: ':' ::
        joinColons (superSegments supers ++ parts)).length =
        (joinColons (superSegments supers ++ parts)).length + 7 := by
      have hsuper : "super".toList.length = 5 := rfl
      rw [List.length_append, List.length_cons, List.length_cons, hsuper]
      omega
    rw [superSegments] at hlen ih
    omega

/-! ### The candidates of a declaration -/

/-- Where the code looks for the module that a declaration names, from the directory of its file. -/
def ModDecl.base (d : ModDecl) (dir : List (List Char)) : Option (List (List Char)) :=
  match d with
  | item x => some (dir ++ [x.text])
  | useOf true supers path _ _ => some (dir ++ superSegments supers ++ path.map Spelled.text)
  | useOf false supers path _ _ =>
    if supers ≤ dir.length then some (dir.take (dir.length - supers) ++ path.map Spelled.text)
    else none

theorem isSegment_of_mem_path {path : List Spelled} {w : List Char}
    (hw : w ∈ path.map Spelled.text) : IsSegment w := by
  obtain ⟨x, -, rfl⟩ := List.mem_map.mp hw
  exact x.isSegment

theorem isSegment_of_mem_supers {supers : Nat} {path : List Spelled} {w : List Char}
    (hw : w ∈ superSegments supers ++ path.map Spelled.text) : IsSegment w := by
  rcases List.mem_append.mp hw with hsuper | hpath
  · rw [List.eq_of_mem_replicate hsuper]
    exact isSegment_super
  · exact isSegment_of_mem_path hpath

theorem ModDecl.base_cases {d : ModDecl} {dir b : List (List Char)} (hdir : PlainPath dir)
    (h : d.base dir = some b) : PlainPath b ∧ ∃ init x, b = init ++ [Spelled.text x] := by
  have hend {front : List (List Char)} {path : List Spelled} (hne : path ≠ [])
      (hfront : PlainPath front) : PlainPath (front ++ path.map Spelled.text) ∧
      ∃ init x, front ++ path.map Spelled.text = init ++ [Spelled.text x] := by
    refine ⟨hfront.append (PlainPath.of_segments fun w hw => isSegment_of_mem_path hw), ?_⟩
    cases List.eq_nil_or_concat path with
    | inl hnil => exact absurd hnil hne
    | inr hconcat =>
      obtain ⟨init, x, rfl⟩ := hconcat
      exact ⟨front ++ init.map Spelled.text, x, by simp⟩
  cases d with
  | item x =>
    rw [← Option.some.inj h]
    exact hend (List.cons_ne_nil x []) hdir
  | useOf viaSelf supers path nonempty anchored =>
    cases viaSelf with
    | true =>
      rw [← Option.some.inj h]
      apply hend nonempty
      apply hdir.append
      apply PlainPath.of_segments
      intro w hw
      rw [List.eq_of_mem_replicate hw]
      exact isSegment_super
    | false =>
      rw [ModDecl.base] at h
      split_ifs at h
      rw [← Option.some.inj h]
      exact hend nonempty (hdir.subset fun w hw => List.mem_of_mem_take hw)

theorem flatFile_concat (init : List (List Char)) (w : List Char) :
    flatFile (init ++ [w]) = init ++ [w ++ ".rs".toList] := by
  rw [flatFile, List.dropLast_concat]
  simp

theorem PlainPath.concat {init : List (List Char)} {w : List Char} (h : PlainPath init)
    (hname : IsName w) (hsep : ∀ c ∈ w, isSeparator c = false) : PlainPath (init ++ [w]) := by
  apply h.append
  constructor
  · intro v hv
    rwa [List.mem_singleton.mp hv]
  · intro v hv
    rwa [List.mem_singleton.mp hv]

theorem plain_rs {w : List Char} (h : ∀ c ∈ w, isSeparator c = false) :
    IsName (w ++ ".rs".toList) ∧ ∀ c ∈ w ++ ".rs".toList, isSeparator c = false := by
  constructor
  · refine ⟨by simp, fun heq => ?_, fun heq => ?_⟩
    · have hlen := congrArg List.length heq
      rw [List.length_append] at hlen
      have hrs : ".rs".toList.length = 3 := rfl
      simp only [hrs, List.length_singleton] at hlen
      omega
    · have hlen := congrArg List.length heq
      rw [List.length_append] at hlen
      have hrs : ".rs".toList.length = 3 := rfl
      simp only [hrs, List.length_cons, List.length_nil] at hlen
      omega
  · intro c hc
    rcases List.mem_append.mp hc with hin | hext
    · exact h c hin
    · have hdots : ∀ c ∈ ".rs".toList, isSeparator c = false := by simp [isSeparator]
      exact hdots c hext

theorem PlainPath.flatFile {init : List (List Char)} {w : List Char} (h : PlainPath (init ++ [w])) :
    PlainPath (Indexer.flatFile (init ++ [w])) := by
  have hinit : PlainPath init := h.subset fun v hv => List.mem_append_left _ hv
  have hrs := plain_rs (h.2 w (by simp))
  rw [flatFile_concat]
  exact hinit.concat hrs.1 hrs.2

theorem PlainPath.modFile {b : List (List Char)} (h : PlainPath b) :
    PlainPath (Indexer.modFile b) := by
  have hrs := plain_rs (w := "mod".toList) (by simp [isSeparator])
  exact h.concat hrs.1 hrs.2

theorem rustCandidatePaths_plain {b init : List (List Char)} {x : Spelled} (hplain : PlainPath b)
    (hb : b = init ++ [x.text]) :
    rustCandidatePaths b = [filePath (flatFile b), filePath (modFile b)] := by
  have hw := x.isSegment
  have hstem : fileStem x.text = x.text := by
    rcases fileStem_cases x.text with hself | ⟨ext, -, hdot⟩
    · exact hself.1
    · exact absurd (by simp) (hw.2 '.' (List.mem_of_mem_drop hdot))
  have hflat : withExtension "rs" b = flatFile b := by
    rw [hb, withExtension_concat, hstem, flatFile_concat]
    rfl
  have hflatSep : SeparatorFree (flatFile b) := by
    subst hb
    exact hplain.flatFile.2
  rw [rustCandidatePaths, hflat, pathText_plain hflatSep]
  exact congrArg (fun t => [filePath (flatFile b), t]) (pathText_plain hplain.modFile.2)

theorem not_mem_joinColons {parts : List (List Char)} {c : Char} (hc : c ≠ ':')
    (h : ∀ w ∈ parts, c ∉ w) : c ∉ joinColons parts := by
  induction parts with
  | nil => simp [joinColons]
  | cons w parts ih =>
    by_cases hnil : parts = []
    · subst hnil
      rw [joinColons, List.intercalate_singleton]
      exact h w (by simp)
    · rw [joinColons_cons hnil]
      have htail := ih fun v hv => h v (List.mem_cons_of_mem w hv)
      have hw := h w List.mem_cons_self
      simp [hw, hc, htail]

theorem not_wildcard {path : List Char} (h : '*' ∉ path) :
    ("::*".toList.isSuffixOf path || decide (path = ['*'])) = false := by
  rw [Bool.or_eq_false_iff]
  constructor
  · rw [← Bool.not_eq_true, List.isSuffixOf_iff_suffix]
    exact fun hsuf => h (hsuf.subset (by decide))
  · rw [decide_eq_false_iff_not]
    rintro rfl
    exact h (by simp)

theorem resolveRustModulePath_use {dir : List (List Char)} (hdir : PlainPath dir) {viaSelf : Bool}
    {supers : Nat} {path : List Spelled} (nonempty : path ≠ [])
    (anchored : viaSelf = true ∨ 0 < supers) :
    resolveRustModulePath (joinColons ((if viaSelf then ["self".toList] else []) ++
      superSegments supers ++ path.map Spelled.text)) dir =
      (ModDecl.useOf viaSelf supers path nonempty anchored).base dir := by
  have hmap : path.map Spelled.text ≠ [] := by simpa using nonempty
  have hseg : ∀ w ∈ superSegments supers ++ path.map Spelled.text, IsSegment w :=
    fun w hw => isSegment_of_mem_supers hw
  have hcolon : ∀ w ∈ superSegments supers ++ path.map Spelled.text, ':' ∉ w :=
    fun w hw hc => (hseg w hw).2 ':' hc (by simp)
  have hne : superSegments supers ++ path.map Spelled.text ≠ [] := by simp [nonempty]
  cases viaSelf with
  | true =>
    have htext : joinColons ((if true then ["self".toList] else []) ++ superSegments supers ++
        path.map Spelled.text) =
        "self::".toList ++ joinColons (superSegments supers ++ path.map Spelled.text) := by
      rw [if_pos rfl, List.append_assoc, List.singleton_append, joinColons_cons hne]
      rfl
    have hplain : PlainPath (dir ++ (superSegments supers ++ path.map Spelled.text)) :=
      hdir.append (PlainPath.of_segments hseg)
    rw [htext, resolveRustModulePath, stripPrefix_append]
    dsimp only
    rw [splitColons_joinColons hne hcolon, flatMap_components hseg, normalize_plain hplain,
      ModDecl.base, List.append_assoc]
  | false =>
    have hpos : 0 < supers := anchored.resolve_left (by simp)
    obtain ⟨k, rfl⟩ : ∃ k, supers = k + 1 := ⟨supers - 1, by omega⟩
    have htext : joinColons ((if false then ["self".toList] else []) ++ superSegments (k + 1) ++
        path.map Spelled.text) = joinColons (superSegments (k + 1) ++ path.map Spelled.text) := rfl
    have hcons : joinColons (superSegments (k + 1) ++ path.map Spelled.text) =
        "super::".toList ++ joinColons (superSegments k ++ path.map Spelled.text) := by
      rw [superSegments, List.replicate_succ, List.cons_append,
        joinColons_cons (by simp [nonempty])]
      rfl
    have hself : stripPrefix "self::"
        (joinColons (superSegments (k + 1) ++ path.map Spelled.text)) = none := by
      rw [hcons, stripPrefix, if_neg]
      intro hpre
      obtain ⟨rest, hrest⟩ := List.isPrefixOf_iff_prefix.mp hpre
      simp at hrest
    have hsuper : "super::".toList.isPrefixOf
        (joinColons (superSegments (k + 1) ++ path.map Spelled.text)) = true := by
      rw [hcons]
      exact List.isPrefixOf_iff_prefix.mpr (List.prefix_append _ _)
    have hpathSeg : ∀ w ∈ path.map Spelled.text, IsSegment w :=
      fun w hw => isSegment_of_mem_path hw
    have hpathColon : ∀ w ∈ path.map Spelled.text, ':' ∉ w :=
      fun w hw hc => (hpathSeg w hw).2 ':' hc (by simp)
    have hhead : (path.map Spelled.text).head? ≠ some "super".toList := by
      cases path with
      | nil => exact absurd rfl nonempty
      | cons x path =>
        rw [List.map_cons, List.head?_cons, ne_eq, Option.some.injEq]
        exact x.text_ne_super
    have hfuel : k + 1 ≤ (joinColons (superSegments (k + 1) ++ path.map Spelled.text)).length :=
      supers_le_length (k + 1) hmap
    rw [htext, resolveRustModulePath, hself]
    dsimp only
    rw [if_pos hsuper, stripSuper_segments (k + 1) _ hfuel hmap hpathColon hhead dir, ModDecl.base]
    by_cases hle : k + 1 ≤ dir.length
    · have hrest : joinColons (path.map Spelled.text) ≠ [] := joinColons_ne_nil hmap hpathSeg
      have hplain : PlainPath (dir.take (dir.length - (k + 1)) ++ path.map Spelled.text) :=
        (hdir.subset fun w hw => List.mem_of_mem_take hw).append (PlainPath.of_segments hpathSeg)
      rw [if_pos hle, if_pos hle, Option.bind_some]
      dsimp only
      rw [if_neg hrest, splitColons_joinColons hmap hpathColon, flatMap_components hpathSeg,
        normalize_plain hplain]
    · rw [if_neg hle, if_neg hle]
      rfl

theorem rustTargets_decl {dir : List (List Char)} (hdir : PlainPath dir) {d : ModDecl} {n : Node}
    (hkind : n.kind = d.kind) (hsig : n.vname.signature = String.ofList d.signature) :
    rustTargets dir n =
      ((d.base dir).map fun b => [filePath (flatFile b), filePath (modFile b)]).getD [] := by
  have hcandidates : (d.base dir).map rustCandidatePaths =
      (d.base dir).map fun b => [filePath (flatFile b), filePath (modFile b)] := by
    cases hb : d.base dir with
    | none => rfl
    | some b =>
      obtain ⟨hplain, init, x, hend⟩ := ModDecl.base_cases hdir hb
      rw [Option.map_some, Option.map_some, rustCandidatePaths_plain hplain hend]
  rw [← hcandidates]
  have htext : n.vname.signature.toList = d.signature := by rw [hsig, String.toList_ofList]
  cases d with
  | item x =>
    have hitem : n.kind = "file-module" := hkind
    have huse : specifier "import" "use:" n = none := by
      rw [specifier, hitem]
      rfl
    have hmod : specifier "file-module" "filemod:" n = some x.text := by
      rw [specifier, htext, if_pos hitem]
      exact stripPrefix_append "filemod:" x.text
    have hplain : PlainPath (dir ++ [x.text]) :=
      hdir.concat x.isSegment.1 x.isSegment.separatorFree
    rw [rustTargets, huse]
    dsimp only
    rw [hmod, Option.map_some, components_segment x.isSegment, normalize_plain hplain]
    rfl
  | useOf viaSelf supers path nonempty anchored =>
    have huse : specifier "import" "use:" n = some (joinColons
        ((if viaSelf then ["self".toList] else []) ++ superSegments supers ++
          path.map Spelled.text)) := by
      have himport : n.kind = "import" := hkind
      rw [specifier, htext, if_pos himport]
      exact stripPrefix_append "use:" _
    have hstar : '*' ∉ joinColons ((if viaSelf then ["self".toList] else []) ++
        superSegments supers ++ path.map Spelled.text) := by
      apply not_mem_joinColons (by decide)
      intro w hw hc
      rw [List.append_assoc] at hw
      rcases List.mem_append.mp hw with hself | hrest
      · split_ifs at hself with hvia
        · rw [List.mem_singleton.mp hself] at hc
          exact absurd hc (by decide)
        · exact absurd hself (by simp)
      · exact (isSegment_of_mem_supers hrest).2 '*' hc (by simp)
    rw [rustTargets, huse]
    dsimp only
    rw [not_wildcard hstar, resolveRustModulePath_use hdir nonempty anchored]
    rfl

/-! ### Files of the crate -/

variable {c : Crate}

theorem namesOf_concat (init : ModPath) (x : ModName) : namesOf (init ++ [x]) = namesOf init ++ [x.val] := by
  simp [namesOf]

theorem Crate.fileOf_root (c : Crate) : c.fileOf [] = c.dir ++ [c.root] := by
  rw [Crate.fileOf, moduleFile, if_pos rfl]

theorem Crate.fileOf_cases (c : Crate) {m : ModPath} (hne : m ≠ []) :
    (c.inModRs m = true ∧ c.fileOf m = modFile (c.dir ++ namesOf m)) ∨
      (c.inModRs m = false ∧ c.fileOf m = flatFile (c.dir ++ namesOf m)) := by
  rw [Crate.fileOf, moduleFile, if_neg hne]
  by_cases hin : c.inModRs m = true
  · exact Or.inl ⟨hin, if_pos hin⟩
  · exact Or.inr ⟨by simpa using hin, if_neg hin⟩

theorem Crate.plain_module (c : Crate) (m : ModPath) : PlainPath (c.dir ++ namesOf m) :=
  PlainPath.append c.dirPlain (plainPath_namesOf m)

theorem Crate.plain_fileOf (c : Crate) (m : ModPath) : PlainPath (c.fileOf m) ∧ c.fileOf m ≠ [] := by
  have hlib := plain_rs (w := "lib".toList) (by simp [isSeparator])
  have hmain := plain_rs (w := "main".toList) (by simp [isSeparator])
  by_cases hne : m = []
  · subst hne
    rw [c.fileOf_root]
    refine ⟨?_, by simp⟩
    have hdir : PlainPath c.dir := c.dirPlain
    rcases c.isRoot with hroot | hroot
    · rw [hroot]
      exact hdir.concat hlib.1 hlib.2
    · rw [hroot]
      exact hdir.concat hmain.1 hmain.2
  · have hplain := c.plain_module m
    rcases c.fileOf_cases hne with ⟨-, hfile⟩ | ⟨-, hfile⟩
    · rw [hfile]
      exact ⟨hplain.modFile, by simp [modFile]⟩
    · rw [hfile]
      cases List.eq_nil_or_concat m with
      | inl hnil => exact absurd hnil hne
      | inr hconcat =>
        obtain ⟨init, x, rfl⟩ := hconcat
        rw [List.concat_eq_append, namesOf_concat, ← List.append_assoc] at hplain ⊢
        exact ⟨hplain.flatFile, by simp [flatFile]⟩

theorem Crate.dir_fileOf (c : Crate) (m : ModPath) :
    ((m = [] ∨ c.inModRs m = true) ∧ (c.fileOf m).dropLast = c.dir ++ namesOf m) ∨
      (¬ (m = [] ∨ c.inModRs m = true) ∧ ∃ init x, m = init ++ [x] ∧
        (c.fileOf m).dropLast = c.dir ++ namesOf init) := by
  by_cases hne : m = []
  · subst hne
    apply Or.inl
    rw [c.fileOf_root, List.dropLast_concat]
    exact ⟨Or.inl rfl, by simp [namesOf]⟩
  · rcases c.fileOf_cases hne with ⟨hin, hfile⟩ | ⟨hin, hfile⟩
    · apply Or.inl
      rw [hfile, modFile, List.dropLast_concat]
      exact ⟨Or.inr hin, rfl⟩
    · apply Or.inr
      refine ⟨by simp [hne, hin], ?_⟩
      cases List.eq_nil_or_concat m with
      | inl hnil => exact absurd hnil hne
      | inr hconcat =>
        obtain ⟨init, x, rfl⟩ := hconcat
        refine ⟨init, x, List.concat_eq_append, ?_⟩
        rw [hfile, List.concat_eq_append, namesOf_concat, ← List.append_assoc, flatFile_concat,
          List.dropLast_concat]

theorem mem_linkImportsRust (s : Site c) {env : Env} {corpus : String} {n : Node}
    (hinj : Function.Injective env.vnameId) (hkind : n.kind = s.decl.kind)
    (hsig : n.vname.signature = String.ofList s.decl.signature) (m : ModPath) :
    resolvesToEdge n.id (fileNodeId env corpus "rust" (filePath (c.fileOf m))) ∈
        linkImportsRust env corpus (filePath (c.fileOf s.file)) [n] ↔
      ∃ b, s.decl.base (c.fileOf s.file).dropLast = some b ∧
        (c.fileOf m = flatFile b ∨ c.fileOf m = modFile b) := by
  have hfile := c.plain_fileOf s.file
  have hm := c.plain_fileOf m
  have hcomponents : components (filePath (c.fileOf s.file)).toList = c.fileOf s.file := by
    rw [filePath, String.toList_ofList, components_joinSlash hfile.1 hfile.2]
  have hdir : PlainPath (c.fileOf s.file).dropLast :=
    hfile.1.subset fun w hw => List.dropLast_subset _ hw
  have hid {path : String} : resolvesToEdge n.id (fileNodeId env corpus "rust" path) =
      resolvesToEdge n.id (fileNodeId env corpus "rust" (filePath (c.fileOf m))) ↔
      path = filePath (c.fileOf m) := by
    constructor
    · intro heq
      have hvname := hinj (congrArg Edge.dst heq)
      exact congrArg VName.path hvname
    · intro heq
      rw [heq]
  rw [linkImportsRust, hcomponents, parentOf, if_neg hfile.2]
  dsimp only
  rw [linkEach, List.flatMap_singleton, List.mem_map, rustTargets_decl hdir hkind hsig]
  have hedges : (∃ id ∈ (((s.decl.base (c.fileOf s.file).dropLast).map fun b =>
      [filePath (flatFile b), filePath (modFile b)]).getD []).map (fileNodeId env corpus "rust"),
      resolvesToEdge n.id id =
        resolvesToEdge n.id (fileNodeId env corpus "rust" (filePath (c.fileOf m)))) ↔
      filePath (c.fileOf m) ∈ ((s.decl.base (c.fileOf s.file).dropLast).map fun b =>
        [filePath (flatFile b), filePath (modFile b)]).getD [] := by
    constructor
    · rintro ⟨id, hmem, heq⟩
      obtain ⟨path, hpath, rfl⟩ := List.mem_map.mp hmem
      rwa [← hid.mp heq]
    · intro hmem
      exact ⟨_, List.mem_map_of_mem hmem, rfl⟩
  rw [hedges]
  cases hb : s.decl.base (c.fileOf s.file).dropLast with
  | none => simp
  | some b =>
    obtain ⟨hplain, init, x, hend⟩ := ModDecl.base_cases hdir hb
    subst hend
    rw [Option.map_some, Option.getD_some, List.mem_cons, List.mem_singleton]
    have hflat : filePath (c.fileOf m) = filePath (flatFile (init ++ [x.text])) ↔
        c.fileOf m = flatFile (init ++ [x.text]) :=
      ⟨filePath_inj hm.1 hplain.flatFile hm.2 (by simp [flatFile]), congrArg filePath⟩
    have hmod : filePath (c.fileOf m) = filePath (modFile (init ++ [x.text])) ↔
        c.fileOf m = modFile (init ++ [x.text]) :=
      ⟨filePath_inj hm.1 hplain.modFile hm.2 (by simp [modFile]), congrArg filePath⟩
    rw [hflat, hmod]
    constructor
    · intro h
      exact ⟨_, rfl, h⟩
    · rintro ⟨b, heq, h⟩
      rwa [Option.some.inj heq]

/-! ### The module a declaration is linked to -/

theorem Spelled.text_ne_mod (x : Spelled) : x.text ≠ "mod".toList := by
  unfold Spelled.text
  split_ifs
  · intro h
    exact absurd (List.head_eq_of_cons_eq h) (by decide)
  · exact x.name.property.2.2.2

theorem Spelled.text_eq_name {x : Spelled} : x.text = x.name.val ↔ x.raw = false := by
  unfold Spelled.text
  cases x.raw with
  | true =>
    constructor
    · intro h
      have hlen := congrArg List.length h
      simp only [if_true, List.length_cons] at hlen
      omega
    · simp
  | false => simp

theorem map_text_eq_names {path : List Spelled} :
    path.map Spelled.text = namesOf (path.map Spelled.name) ↔ ∀ x ∈ path, x.raw = false := by
  induction path with
  | nil => simp [namesOf]
  | cons x path ih =>
    have hcons : namesOf ((x :: path).map Spelled.name) =
        x.name.val :: namesOf (path.map Spelled.name) := rfl
    rw [hcons, List.map_cons, List.cons.injEq, ih, Spelled.text_eq_name, List.forall_mem_cons]

theorem namesOf_append (m m' : ModPath) : namesOf (m ++ m') = namesOf m ++ namesOf m' :=
  List.map_append

theorem base_of_place {init front : List (List Char)} {y x : List Char} (hy : y ≠ "mod".toList)
    (hx : x ≠ "mod".toList)
    (h : (flatFile (init ++ [y]) = flatFile (front ++ [x]) ∨
        flatFile (init ++ [y]) = modFile (front ++ [x])) ∨
      modFile (init ++ [y]) = flatFile (front ++ [x]) ∨
        modFile (init ++ [y]) = modFile (front ++ [x])) : init ++ [y] = front ++ [x] := by
  have hmod : "mod.rs".toList = "mod".toList ++ ".rs".toList := rfl
  have hends {a b : List (List Char)} {v w : List Char}
      (heq : a ++ [v ++ ".rs".toList] = b ++ [w ++ ".rs".toList]) : a ++ [v] = b ++ [w] := by
    obtain ⟨hfront, hlast⟩ := List.append_inj' heq rfl
    rw [List.cons.injEq] at hlast
    rw [hfront, List.append_cancel_right hlast.1]
  simp only [flatFile_concat, modFile, hmod] at h
  rcases h with (h | h) | (h | h)
  · exact hends h
  · have hlast := (List.append_inj' (hends h) rfl).2
    rw [List.cons.injEq] at hlast
    exact absurd hlast.1 hy
  · have hlast := (List.append_inj' (hends h) rfl).2
    rw [List.cons.injEq] at hlast
    exact absurd hlast.1.symm hx
  · exact List.append_cancel_right h

theorem base_of_inOwnDirectory (s : Site c) (hown : InOwnDirectory s) (hplain : s.decl.Plain) :
    s.decl.base (c.fileOf s.file).dropLast = some (c.dir ++ namesOf s.target) := by
  have hdir : (c.fileOf s.file).dropLast = c.dir ++ namesOf s.file := by
    rcases c.dir_fileOf s.file with ⟨-, h⟩ | ⟨hnot, -⟩
    · exact h
    · exact absurd hown.1 hnot
  have htarget := s.resolves
  rw [hown.2, List.append_nil] at htarget
  rw [hdir]
  cases hd : s.decl with
  | item x =>
    rw [hd] at htarget hplain
    rw [← Option.some.inj htarget, namesOf_concat, ModDecl.base, ← List.append_assoc]
    rw [Spelled.text_eq_name.mpr hplain]
  | useOf viaSelf supers path nonempty anchored =>
    rw [hd] at htarget hplain
    obtain ⟨hself, hraw⟩ := hplain
    rw [ModDecl.target] at htarget
    split_ifs at htarget with hle
    rw [← Option.some.inj htarget, namesOf_append, ← map_text_eq_names.mpr hraw]
    cases viaSelf with
    | true =>
      rw [ModDecl.base, hself rfl, superSegments, List.replicate_zero, List.append_nil,
        Nat.sub_zero, List.take_length, List.append_assoc]
    | false =>
      have hlen : (namesOf s.file).length = s.file.length := List.length_map _
      have htake : (c.dir ++ namesOf s.file).take ((c.dir ++ namesOf s.file).length - supers) =
          c.dir ++ namesOf (s.file.take (s.file.length - supers)) := by
        have hsub : (c.dir ++ namesOf s.file).length - supers =
            c.dir.length + (s.file.length - supers) := by
          rw [List.length_append, hlen]
          omega
        rw [hsub, List.take_append, List.take_of_length_le (by omega), Nat.add_sub_cancel_left,
          namesOf, ← List.map_take]
        rfl
      rw [ModDecl.base, if_pos (by rw [List.length_append, hlen]; omega), htake, List.append_assoc]

/-- A declaration that is looked for where its module stands is plain and in its own directory. -/
theorem inOwnDirectory_of_base (s : Site c)
    (h : s.decl.base (c.fileOf s.file).dropLast = some (c.dir ++ namesOf s.target)) :
    InOwnDirectory s ∧ s.decl.Plain := by
  obtain ⟨here, hhere, hown⟩ : ∃ here : ModPath,
      (c.fileOf s.file).dropLast = c.dir ++ namesOf here ∧
        (here.length = s.file.length + s.scope.length → InOwnDirectory s) ∧
        here.length ≤ s.file.length := by
    rcases c.dir_fileOf s.file with ⟨hroot, hdir⟩ | ⟨-, init, x, hfile, hdir⟩
    · refine ⟨s.file, hdir, fun hlen => ⟨hroot, ?_⟩, le_rfl⟩
      exact List.length_eq_zero_iff.mp (by omega)
    · have hlen : s.file.length = init.length + 1 := by rw [hfile]; simp
      exact ⟨init, hdir, fun heq => by omega, by omega⟩
  have hlen (m : ModPath) : (namesOf m).length = m.length := List.length_map _
  have htarget := s.resolves
  rw [hhere] at h
  cases hd : s.decl with
  | item x =>
    rw [hd] at h htarget
    rw [ModDecl.base, Option.some.injEq, ← Option.some.inj htarget, namesOf_concat,
      List.append_assoc, List.append_cancel_left_eq] at h
    obtain ⟨hfront, hlast⟩ := List.append_inj' h rfl
    rw [List.cons.injEq] at hlast
    have hcount := congrArg List.length hfront
    rw [hlen, hlen, List.length_append] at hcount
    exact ⟨hown.1 hcount, Spelled.text_eq_name.mp hlast.1⟩
  | useOf viaSelf supers path nonempty anchored =>
    rw [hd] at h htarget
    rw [ModDecl.target] at htarget
    split_ifs at htarget with hle
    have hnames := congrArg namesOf (Option.some.inj htarget)
    rw [namesOf_append] at hnames
    have hpaths : (path.map Spelled.text).length = (namesOf (path.map Spelled.name)).length := by
      rw [hlen, List.length_map, List.length_map]
    rw [List.length_append] at hle
    cases viaSelf with
    | true =>
      rw [ModDecl.base, Option.some.injEq, ← hnames, List.append_assoc, List.append_assoc,
        List.append_cancel_left_eq, ← List.append_assoc] at h
      obtain ⟨hfront, hlast⟩ := List.append_inj' h hpaths
      have hzero : supers = 0 := by
        by_contra hpos
        have hmem : "super".toList ∈
            namesOf ((s.file ++ s.scope).take ((s.file ++ s.scope).length - supers)) := by
          rw [← hfront]
          apply List.mem_append_right
          exact List.mem_replicate.mpr ⟨hpos, rfl⟩
        obtain ⟨x, -, hx⟩ := List.mem_map.mp hmem
        exact x.property.2.2.1 hx
      subst hzero
      have hcount := congrArg List.length hfront
      rw [superSegments, List.replicate_zero, List.append_nil, hlen, hlen, Nat.sub_zero,
        List.take_length, List.length_append] at hcount
      exact ⟨hown.1 hcount, fun _ => rfl, map_text_eq_names.mp hlast⟩
    | false =>
      rw [ModDecl.base] at h
      split_ifs at h with hdirs
      rw [Option.some.injEq, ← hnames, ← List.append_assoc] at h
      obtain ⟨hfront, hlast⟩ := List.append_inj' h hpaths
      have hcount := congrArg List.length hfront
      rw [List.length_take, List.length_append, List.length_append, hlen, hlen, List.length_take,
        List.length_append] at hcount
      rw [List.length_append, hlen] at hdirs
      have hhereLen := hown.2
      exact ⟨hown.1 (by omega), nofun, map_text_eq_names.mp hlast⟩

theorem Site.target_ne_nil (s : Site c) : s.target ≠ [] := by
  intro hnil
  apply c.rootless
  rw [← hnil]
  exact s.targetMem

theorem followsTree_of_base (s : Site c)
    (h : s.decl.base (c.fileOf s.file).dropLast = some (c.dir ++ namesOf s.target)) :
    FollowsTree s := by
  intro env corpus n hinj hkind hsig m hm
  rw [mem_linkImportsRust s hinj hkind hsig, h]
  constructor
  · rintro ⟨b, hb, hplace⟩
    rw [Option.some.injEq] at hb
    subst hb
    exact c.sole s.target s.targetMem m hm hplace
  · rintro rfl
    refine ⟨_, rfl, ?_⟩
    rcases c.fileOf_cases s.target_ne_nil with ⟨-, hfile⟩ | ⟨-, hfile⟩
    · exact Or.inr hfile
    · exact Or.inl hfile

theorem countable_vname : Countable VName := by
  have hinj : Function.Injective fun v : VName => ((v.corpus.toList.map Char.toNat),
      (v.root.toList.map Char.toNat), (v.path.toList.map Char.toNat),
      (v.language.toList.map Char.toNat), (v.signature.toList.map Char.toNat)) := by
    have hchar : Function.Injective (List.map Char.toNat) :=
      List.map_injective_iff.mpr fun a b h => Char.toNat_inj.mp h
    intro v w h
    simp only [Prod.mk.injEq] at h
    cases v
    cases w
    rw [VName.mk.injEq]
    exact ⟨String.toList_inj.mp (hchar h.1), String.toList_inj.mp (hchar h.2.1),
      String.toList_inj.mp (hchar h.2.2.1), String.toList_inj.mp (hchar h.2.2.2.1),
      String.toList_inj.mp (hchar h.2.2.2.2)⟩
  exact hinj.countable

def ModDecl.node (d : ModDecl) : Node :=
  ⟨0, ⟨"", "", "", "rust", String.ofList d.signature⟩, d.kind, "", none, none, .none⟩

theorem base_of_followsTree (s : Site c) (h : FollowsTree s) :
    s.decl.base (c.fileOf s.file).dropLast = some (c.dir ++ namesOf s.target) := by
  obtain ⟨number, hinj⟩ := (countable_iff_exists_injective VName).mp countable_vname
  have hedge := (h ⟨number, id, fun _ => false⟩ "" s.decl.node hinj rfl rfl s.target
    (List.mem_cons_of_mem [] s.targetMem)).mpr rfl
  obtain ⟨b, hb, hplace⟩ := (mem_linkImportsRust s hinj rfl rfl s.target).mp hedge
  have hdir : PlainPath (c.fileOf s.file).dropLast :=
    (c.plain_fileOf s.file).1.subset fun w hw => List.dropLast_subset _ hw
  obtain ⟨-, front, x, hend⟩ := ModDecl.base_cases hdir hb
  obtain ⟨init, y, htarget⟩ : ∃ init y, s.target = init ++ [y] := by
    cases List.eq_nil_or_concat s.target with
    | inl hnil => exact absurd hnil s.target_ne_nil
    | inr hconcat =>
      obtain ⟨init, y, heq⟩ := hconcat
      exact ⟨init, y, heq.trans List.concat_eq_append⟩
  have hsplit : c.dir ++ namesOf s.target = (c.dir ++ namesOf init) ++ [y.val] := by
    rw [htarget, namesOf_concat, List.append_assoc]
  rw [hb, hsplit, hend, Option.some.injEq]
  apply Eq.symm
  apply base_of_place y.property.2.2.2 x.text_ne_mod
  rw [← hend, ← hsplit]
  rcases c.fileOf_cases s.target_ne_nil with ⟨-, hfile⟩ | ⟨-, hfile⟩
  · rw [hfile] at hplace
    exact Or.inr hplace
  · rw [hfile] at hplace
    exact Or.inl hplace

/-- A declaration is linked along the module tree exactly when it stands at the top of a crate root
or of a `mod.rs`, spells no name raw and puts no `super` behind a `self`. -/
theorem followsTree_iff (c : Crate) (s : Site c) :
    FollowsTree s ↔ InOwnDirectory s ∧ s.decl.Plain := by
  constructor
  · intro h
    exact inOwnDirectory_of_base s (base_of_followsTree s h)
  · rintro ⟨hown, hplain⟩
    exact followsTree_of_base s (base_of_inOwnDirectory s hown hplain)

def modA : ModName := ⟨['a'], by decide, by simp, by decide, by decide⟩

def modB : ModName := ⟨['b'], by decide, by simp, by decide, by decide⟩

/-- `src/lib.rs`, `src/a.rs` and `src/a/b.rs`. -/
def flatCrate : Crate where
  dir := ["src".toList]
  dirPlain := by
    refine ⟨?_, ?_⟩
    · intro w hw
      rw [List.mem_singleton.mp hw]
      exact ⟨by decide, by decide, by decide⟩
    · intro w hw
      rw [List.mem_singleton.mp hw]
      simp [isSeparator]
  root := "lib.rs".toList
  isRoot := Or.inl rfl
  modules := [[modA], [modA, modB]]
  inModRs := fun _ => false
  rootless := by decide
  sole := by decide

/-- `mod b;` in `src/a.rs`. -/
def flatSite : Site flatCrate where
  file := [modA]
  fileMem := by decide
  scope := []
  decl := .item ⟨modB, false⟩
  target := [modA, modB]
  resolves := rfl
  targetMem := by decide

/-- A module declared in a file beside its directory is looked for in the wrong directory. -/
theorem flat_file_is_not_followed : ¬ FollowsTree flatSite := by
  intro h
  have hbase := base_of_followsTree flatSite h
  exact absurd hbase (by decide)

end Travsr.Indexer
