import Travsr.Analysis.Pom
import Travsr.Core.Pieces
import Travsr.Indexer.LsifPositional

namespace Travsr.Analysis.Tsconfig

open Travsr.Core
open Travsr.Core.Text StackWalk
open Travsr.Analysis.Pom (ParseOutput)
open Travsr.Indexer.Lsif (Value)

/-! ## The edges of a `tsconfig.json` -/

abbrev dots : List Char := ['.', '.']

/-- One component of `Path::components`. -/
def normaliseStep (parts : List (List Char)) (component : List Char) : List (List Char) :=
  if component = [] ∨ component = ['.'] then parts
  else if component = dots then
    match parts.getLast? with
    | some p => if p ≠ dots then parts.dropLast else parts ++ [dots]
    | none => parts ++ [dots]
  else parts ++ [component]

/-- `normalise_repo_path`. -/
def normaliseRepoPath (raw : List Char) : List Char :=
  joinSlash ((splitOn (· = '/') raw).foldl normaliseStep [])

/-- `Path::join`. -/
def joinPath (dir value : List Char) : List Char :=
  if value.head? = some '/' then value
  else if dir = [] ∨ dir.getLast? = some '/' then dir ++ value
  else dir ++ '/' :: value

/-- `Path::extension`. -/
def pathExtension (fp : List Char) : Option (List Char) :=
  (pathFileName fp).bind fun name =>
    (rsplitOnce '.' name).bind fun parts => if parts.1 = [] then none else some parts.2

def json : List Char := ['.', 'j', 's', 'o', 'n']

def withExt (extends_ : List Char) : List Char :=
  if (pathExtension extends_).isSome then extends_ else extends_ ++ json

def configure (env : Env) (corpus : String) (fileId : NodeId) (path : List Char) : Node × Edge :=
  let node := Node.new env ⟨corpus, "", String.ofList path, "json", "file"⟩ "file"
  (node, ⟨fileId, node.id, .configures, none, none⟩)

/-- The part of `parse_tsconfig_json` that reads `extends`. -/
def onExtends (env : Env) (corpus : String) (vnameDir : List Char) (fileId : NodeId) (v : Value)
    (out : ParseOutput) : ParseOutput :=
  match (v.get "extends").bind Value.asStr with
  | some extends_ =>
    if extends_.head? = some '.' then
      out.push (configure env corpus fileId (normaliseRepoPath (joinPath vnameDir (withExt extends_))))
    else out
  | none => out

def referencePaths (v : Value) : List (List Char) :=
  (((v.get "references").bind Value.asArray).getD []).filterMap fun r => (r.get "path").bind Value.asStr

/-- The part that reads `references`. -/
def onReferences (env : Env) (corpus : String) (vnameDir : List Char) (fileId : NodeId) (v : Value)
    (out : ParseOutput) : ParseOutput :=
  (referencePaths v).foldl
    (fun out refPath =>
      out.push (configure env corpus fileId (normaliseRepoPath (joinPath vnameDir refPath)))) out

/-- `parse_tsconfig_json`, of the value that the file holds. -/
def parseTsconfigJson (env : Env) (corpus : String) (vnamePath : List Char) (fileId : NodeId) (v : Value)
    (out : ParseOutput) : ParseOutput :=
  let vnameDir := (pathParent vnamePath).getD []
  onReferences env corpus vnameDir fileId v (onExtends env corpus vnameDir fileId v out)

/-! ## The configs that TypeScript loads -/

/-- The directory of a config in the repository. -/
structure ConfigDir where
  names : List (List Char)
  isName : AllNames names
  slashFree : ∀ w ∈ names, '/' ∉ w

def tsconfigName : List Char := "tsconfig.json".toList

def ConfigDir.vnamePath (d : ConfigDir) : List Char := joinSlash (d.names ++ [tsconfigName])

/-- A value that TypeScript takes against the config's directory. -/
def Relative (value : List Char) : Prop := ['.', '/'] <+: value ∨ ['.', '.', '/'] <+: value

/-- The directory and the value one behind the other, `.` and `..` cancelled; none outside the
repository. -/
def ConfigDir.components (d : ConfigDir) (value : List Char) : Option (List (List Char)) :=
  if value.head? = some '/' then none
  else
    let left := reduce ((d.names ++ splitOn (· = '/') value).map segmentMove)
    if left.1 = 0 then some left.2 else none

/-- The config that an `extends` value names. The repository's own directory with an extension lies
outside it. -/
def ConfigDir.extendsTarget (d : ConfigDir) (value : List Char) : Option (List Char) :=
  (d.components value).bind fun parts =>
    if parts = [] then none
    else if json <:+ joinSlash parts then some (joinSlash parts)
    else some (joinSlash parts ++ json)

def ConfigDir.referenceTarget (d : ConfigDir) (value : List Char) : Option (List Char) :=
  (d.components value).map fun parts =>
    if json <:+ joinSlash parts then joinSlash parts else joinSlash (parts ++ [tsconfigName])

/-- The output with the node of a target and the edge to it, where there is a target. -/
def ParseOutput.target (env : Env) (corpus : String) (fileId : NodeId) (out : ParseOutput) :
    Option (List Char) → ParseOutput
  | some path => out.push (configure env corpus fileId path)
  | none => out

/-- A relative `extends` value and every reference push the config that TypeScript loads, and no
other. -/
structure PointsAtConfigs (env : Env) (corpus : String) (fileId : NodeId) (d : ConfigDir) (v : Value) :
    Prop where
  extends_ : ∀ value, (v.get "extends").bind Value.asStr = some value → Relative value →
    ∀ out, onExtends env corpus ((pathParent d.vnamePath).getD []) fileId v out =
      ParseOutput.target env corpus fileId out (d.extendsTarget value)
  references : ∀ out, parseTsconfigJson env corpus d.vnamePath fileId v out =
    (referencePaths v).foldl
      (fun out value => ParseOutput.target env corpus fileId out (d.referenceTarget value))
      (onExtends env corpus ((pathParent d.vnamePath).getD []) fileId v out)

/-- The last component of an `extends` value is a name that ends in `.json` behind a stem, or one at
the end of the text that has no extension and is not `.json` itself; and the value stays in the
repository. -/
structure ConfigDir.ExtendsPlain (d : ConfigDir) (value : List Char) : Prop where
  inside : (d.components value).isSome
  named : (∃ stem, stem ≠ [] ∧ pathFileName value = some (stem ++ json)) ∨
    ∃ name, (splitOn (· = '/') value).getLast? = some name ∧ IsName name ∧ name ≠ json ∧ '.' ∉ name.tail

/-- The path of a reference leads to a `.json` file in the repository. -/
def ConfigDir.ReferencePlain (d : ConfigDir) (value : List Char) : Prop :=
  ∃ parts, d.components value = some parts ∧ json <:+ joinSlash parts

/-! ## Joined paths -/

def SlashFree (parts : List (List Char)) : Prop := ∀ w ∈ parts, '/' ∉ w

theorem SlashFree.append {parts more : List (List Char)} (h : SlashFree parts) (h' : SlashFree more) :
    SlashFree (parts ++ more) := List.forall_mem_append.mpr ⟨h, h'⟩

theorem slashFree_splitOn (s : List Char) : SlashFree (splitOn (· = '/') s) := by
  intro w hw hslash
  exact of_decide_eq_false (of_mem_splitOn hw '/' hslash).1 rfl

theorem splitOn_joined {parts : List (List Char)} (h : SlashFree parts) (hne : parts ≠ []) :
    splitOn (· = '/') (joinSlash parts) = parts := by
  have hp : (fun c : Char => decide (c = '/')) = (· == '/') := by
    funext c
    exact (Bool.beq_eq_decide_eq c '/').symm
  rw [splitOn_eq_splitOnP, hp, ← List.splitOn_eq_splitOnP, joinSlash, List.splitOn_intercalate '/' h hne]

theorem joined_inj {parts more : List (List Char)} (h : SlashFree parts) (h' : SlashFree more)
    (hne : parts ≠ []) (hne' : more ≠ []) (heq : joinSlash parts = joinSlash more) : parts = more := by
  rw [← splitOn_joined h hne, heq, splitOn_joined h' hne']

theorem slashFree_reduce {segs : List (List Char)} (h : SlashFree segs) :
    SlashFree (reduce (segs.map segmentMove)).2 := fun w hw => h w (reduce_names hw).2

theorem suffix_joined_iff {t : List Char} (ht : '/' ∉ t) (init : List (List Char)) (b : List Char) :
    t <:+ joinSlash (init ++ [b]) ↔ t <:+ b := by
  induction init with
  | nil => rw [List.nil_append, joinSlash, List.intercalate_singleton]
  | cons w init ih =>
    rw [← ih, List.cons_append, joinSlash, List.intercalate_cons_of_ne_nil (by simp), ← joinSlash]
    constructor
    · intro h
      by_contra hnot
      rcases List.suffix_or_suffix_of_suffix h (List.suffix_append (w ++ ['/']) _) with hs | hs
      · exact hnot hs
      · obtain ⟨front, hfront⟩ := hs
        have hmem : front ≠ [] := by
          rintro rfl
          exact hnot (hfront ▸ List.suffix_refl _)
        -- What stands in the text before the rest of the path ends in the slash.
        have hslash : front <:+ w ++ ['/'] := by
          obtain ⟨before, hbefore⟩ := h
          rw [← hfront, ← List.append_assoc] at hbefore
          exact ⟨before, List.append_cancel_right hbefore⟩
        obtain ⟨before, hbefore⟩ := hslash
        have hlast := congrArg List.getLast? hbefore
        rw [List.getLast?_append_of_ne_nil _ hmem, List.getLast?_concat] at hlast
        exact ht (hfront ▸ List.mem_append_left _ (List.mem_of_getLast? hlast))
    · exact fun h => h.trans (List.suffix_append _ _)

/-! ## The normaliser -/

def stacked (up : Nat) (names : List (List Char)) : List (List Char) := List.replicate up dots ++ names

theorem normaliseStep_stacked (up : Nat) {names : List (List Char)} (hnames : AllNames names)
    (seg : List Char) :
    normaliseStep (stacked up names) seg =
      match segmentMove seg with
      | .stay => stacked up names
      | .up => if names = [] then stacked (up + 1) [] else stacked up names.dropLast
      | .down a => stacked up (names ++ [a]) := by
  unfold normaliseStep segmentMove
  by_cases hstay : seg = [] ∨ seg = ['.']
  · rw [if_pos hstay, if_pos hstay]
  by_cases hup : seg = dots
  · rw [if_neg hstay, if_pos hup, if_neg hstay, if_pos hup]
    dsimp only
    rcases List.eq_nil_or_concat names with rfl | ⟨init, a, rfl⟩
    · rw [if_pos rfl]
      have hlast : ∀ p, (stacked up []).getLast? = some p → p = dots := by
        intro p hp
        have hmem := List.mem_of_getLast? hp
        rw [stacked, List.append_nil] at hmem
        exact List.eq_of_mem_replicate hmem
      have hgrow : stacked up [] ++ [dots] = stacked (up + 1) [] := by
        rw [stacked, stacked, List.append_nil, List.append_nil, List.replicate_succ']
      cases hget : (stacked up []).getLast? with
      | none => exact hgrow
      | some p =>
        dsimp only
        rw [if_neg (not_not.mpr (hlast p hget)), hgrow]
    · have hlast : (stacked up (init.concat a)).getLast? = some a := by
        rw [List.concat_eq_append, stacked, ← List.append_assoc, List.getLast?_concat]
      have hname : a ≠ dots := (hnames a (by simp)).2.2
      rw [hlast, if_neg (by simp)]
      dsimp only
      rw [if_pos hname, List.concat_eq_append, stacked, ← List.append_assoc, List.dropLast_concat,
        List.dropLast_concat]
      rfl
  · rw [if_neg hstay, if_neg hup, if_neg hstay, if_neg hup, stacked, List.append_assoc]
    rfl

theorem allNames_dropLast {names : List (List Char)} (h : AllNames names) : AllNames names.dropLast :=
  fun w hw => h w ((List.dropLast_sublist _).subset hw)

theorem foldl_normaliseStep (up : Nat) {names : List (List Char)} (hnames : AllNames names)
    (segs : List (List Char)) :
    segs.foldl normaliseStep (stacked up names) =
      if (reduce (segs.map segmentMove)).1 ≤ names.length then
        stacked up (names.take (names.length - (reduce (segs.map segmentMove)).1) ++
          (reduce (segs.map segmentMove)).2)
      else stacked (up + ((reduce (segs.map segmentMove)).1 - names.length))
        (reduce (segs.map segmentMove)).2 := by
  induction segs generalizing up names with
  | nil => simp [reduce]
  | cons seg segs ih =>
    rw [List.foldl_cons, normaliseStep_stacked up hnames, List.map_cons]
    cases hmove : segmentMove seg with
    | stay => exact ih up hnames
    | up =>
      dsimp only
      rw [reduce]
      rcases List.eq_nil_or_concat names with rfl | ⟨init, a, rfl⟩
      · rw [if_pos rfl, ih (up + 1) hnames, List.length_nil, if_neg (Nat.not_succ_le_zero _)]
        split_ifs with hle
        · rw [Nat.le_zero.mp hle]
          rfl
        · congr 1
          omega
      · rw [if_neg (by simp), ih up (allNames_dropLast hnames)]
        simp only [List.concat_eq_append, List.dropLast_concat, List.length_append,
          List.length_singleton]
        by_cases hle : (reduce (segs.map segmentMove)).1 ≤ init.length
        · rw [if_pos hle, if_pos (by omega), Nat.add_sub_add_right,
            List.take_append_of_le_length (by omega)]
        · rw [if_neg hle, if_neg (by omega), Nat.add_sub_add_right]
    | down a =>
      dsimp only
      have hname : IsName a := by
        obtain ⟨rfl, ha⟩ := isName_of_segmentMove hmove
        exact ha
      have hgrown : AllNames (names ++ [a]) := by
        intro w hw
        rcases List.mem_append.mp hw with hin | hlast
        · exact hnames w hin
        · exact List.mem_singleton.mp hlast ▸ hname
      rw [ih up hgrown, reduce, List.length_append, List.length_singleton]
      by_cases hzero : (reduce (segs.map segmentMove)).1 = 0
      · rw [if_pos hzero, hzero, if_pos (by omega), if_pos (by omega), Nat.sub_zero, Nat.sub_zero,
          List.take_length]
        have hall : (names ++ [a]).take (names.length + 1) = names ++ [a] :=
          List.take_of_length_le (by simp)
        rw [hall, List.append_assoc]
        rfl
      · rw [if_neg hzero]
        by_cases hle : (reduce (segs.map segmentMove)).1 ≤ names.length + 1
        · have hsub : names.length + 1 - (reduce (segs.map segmentMove)).1 =
              names.length - ((reduce (segs.map segmentMove)).1 - 1) := by omega
          rw [if_pos hle, if_pos (by omega), hsub, List.take_append_of_le_length (by omega)]
        · rw [if_neg hle, if_neg (by omega)]
          congr 1
          omega

theorem normaliseRepoPath_eq (raw : List Char) :
    normaliseRepoPath raw =
      joinSlash (stacked (reduce ((splitOn (· = '/') raw).map segmentMove)).1
        (reduce ((splitOn (· = '/') raw).map segmentMove)).2) := by
  have hfold := @foldl_normaliseStep 0 [] (fun w hw => absurd hw List.not_mem_nil)
    (splitOn (· = '/') raw)
  rw [normaliseRepoPath, show ([] : List (List Char)) = stacked 0 [] from rfl, hfold]
  split_ifs with hle
  · have hzero : (reduce ((splitOn (· = '/') raw).map segmentMove)).1 = 0 := by simpa using hle
    rw [hzero]
    rfl
  · rw [List.length_nil, Nat.sub_zero, Nat.zero_add]

/-! ## The config's directory -/

variable (d : ConfigDir)

theorem rdropWhile_named {names : List (List Char)} (h : AllNames names) :
    names.rdropWhile (fun w => !isNamed w) = names := by
  rcases List.eq_nil_or_concat names with rfl | ⟨init, a, rfl⟩
  · rfl
  · rw [List.concat_eq_append] at h ⊢
    obtain ⟨hne, hdot, -⟩ := h a (by simp)
    exact List.rdropWhile_concat_neg _ _ _ (by simp [isNamed, hne, hdot])

theorem isName_tsconfig : IsName tsconfigName := ⟨by decide, by decide, by decide⟩

theorem pathParent_vnamePath : pathParent d.vnamePath = some (joinSlash d.names) := by
  have hall : AllNames (d.names ++ [tsconfigName]) :=
    List.forall_mem_append.mpr ⟨d.isName, List.forall_mem_singleton.mpr isName_tsconfig⟩
  have hfree : SlashFree (d.names ++ [tsconfigName]) :=
    SlashFree.append d.slashFree (List.forall_mem_singleton.mpr (by decide))
  have hdrop : dropComponent (d.names ++ [tsconfigName]) = some d.names := by
    rw [dropComponent, rdropWhile_named hall]
    cases hnames : d.names with
    | nil => rfl
    | cons w ws =>
      have hlast : (w :: (ws ++ [tsconfigName])).dropLast = w :: ws :=
        @List.dropLast_concat _ (w :: ws) tsconfigName
      show some ((w :: (ws ++ [tsconfigName])).dropLast.rdropWhile fun w => !isNamed w) = _
      rw [hlast, rdropWhile_named (hnames ▸ d.isName)]
  rw [pathParent, ConfigDir.vnamePath, splitOn_joined hfree (by simp)]
  cases hnames : d.names with
  | nil => rfl
  | cons w ws =>
    obtain ⟨hne, hdot, -⟩ := d.isName w (hnames ▸ List.mem_cons_self)
    rw [hnames] at hdrop
    rw [List.cons_append] at hdrop ⊢
    rw [parentPieces, if_neg (fun h => hne h.1), if_neg hdot, hdrop, Option.map_some, Option.map_some,
      if_neg (List.cons_ne_nil _ _)]

def ConfigDir.left (value : List Char) : Nat × List (List Char) :=
  reduce ((d.names ++ splitOn (· = '/') value).map segmentMove)

theorem reduce_joinPath {value : List Char} (h : value.head? ≠ some '/') :
    reduce ((splitOn (· = '/') (joinPath (joinSlash d.names) value)).map segmentMove) = d.left value := by
  unfold joinPath ConfigDir.left
  rw [if_neg h]
  rcases List.eq_nil_or_concat d.names with hnil | ⟨init, b, hnames⟩
  · rw [hnil]
    rfl
  · rw [List.concat_eq_append] at hnames
    have hb : IsName b := d.isName b (by rw [hnames]; simp)
    have hslash : '/' ∉ b := d.slashFree b (by rw [hnames]; simp)
    have hjoin : joinSlash d.names = joinSlash (init ++ [[]]) ++ b := by
      rw [joinSlash_concat, List.nil_append, hnames]
    have hlast : (joinSlash d.names).getLast? ≠ some '/' := by
      rw [hjoin, List.getLast?_append_of_ne_nil _ hb.1]
      exact fun hc => hslash (List.mem_of_getLast? hc)
    have hne : joinSlash d.names ≠ [] := by
      rw [hjoin]
      exact List.append_ne_nil_of_right_ne_nil _ hb.1
    rw [if_neg (not_or.mpr ⟨hne, hlast⟩), splitOn_append_separator (by simp),
      splitOn_joined d.slashFree (by rw [hnames]; simp)]

theorem normalise_joinPath {value : List Char} (h : value.head? ≠ some '/') :
    normaliseRepoPath (joinPath (joinSlash d.names) value) =
      joinSlash (stacked (d.left value).1 (d.left value).2) := by
  rw [normaliseRepoPath_eq, reduce_joinPath d h]

theorem components_eq {value : List Char} (h : value.head? ≠ some '/') :
    d.components value = if (d.left value).1 = 0 then some (d.left value).2 else none := if_neg h

theorem components_eq_some {value : List Char} {parts : List (List Char)} :
    d.components value = some parts ↔ value.head? ≠ some '/' ∧ d.left value = (0, parts) := by
  unfold ConfigDir.components
  by_cases h : value.head? = some '/'
  · rw [if_pos h]
    exact ⟨nofun, fun hc => absurd h hc.1⟩
  · rw [if_neg h]
    constructor
    · intro hparts
      dsimp only at hparts
      split_ifs at hparts with hzero
      exact ⟨h, Prod.ext hzero (Option.some.inj hparts)⟩
    · rintro ⟨-, hleft⟩
      unfold ConfigDir.left at hleft
      rw [hleft]
      rfl

theorem slashFree_left (value : List Char) : SlashFree (d.left value).2 :=
  slashFree_reduce (SlashFree.append d.slashFree (slashFree_splitOn value))

theorem slash_not_mem_json : '/' ∉ json := by decide

/-! ## References -/

/-- The path that the code gives a reference is the config exactly when the reference is plain. -/
theorem reference_iff (value : List Char) :
    some (normaliseRepoPath (joinPath (joinSlash d.names) value)) = d.referenceTarget value ↔
      d.ReferencePlain value := by
  unfold ConfigDir.referenceTarget ConfigDir.ReferencePlain
  cases hparts : d.components value with
  | none => simp
  | some parts =>
    obtain ⟨hrel, hleft⟩ := (components_eq_some d).mp hparts
    have hcode : normaliseRepoPath (joinPath (joinSlash d.names) value) = joinSlash parts := by
      rw [normalise_joinPath d hrel, hleft]
      rfl
    rw [hcode, Option.map_some, Option.some.injEq]
    have hplain : (∃ parts', some parts = some parts' ∧ json <:+ joinSlash parts') ↔
        json <:+ joinSlash parts :=
      ⟨fun ⟨_, h, hj⟩ => Option.some.inj h ▸ hj, fun h => ⟨parts, rfl, h⟩⟩
    rw [hplain]
    split_ifs with hjson
    · exact iff_of_true rfl hjson
    · refine iff_of_false (fun heq => hjson ?_) hjson
      rw [heq, suffix_joined_iff slash_not_mem_json]
      decide

/-! ## `extends` -/

theorem exists_last_of_mem {c : Char} {s : List Char} (h : c ∈ s) :
    ∃ stem ext, s = stem ++ c :: ext ∧ c ∉ ext := by
  obtain ⟨before, after, hrev, hnot⟩ := List.eq_append_cons_of_mem (List.mem_reverse.mpr h)
  refine ⟨after.reverse, before.reverse, ?_, fun hc => hnot (List.mem_reverse.mp hc)⟩
  rw [← List.reverse_reverse s, hrev]
  simp

theorem pathExtension_isSome {value name : List Char} (h : pathFileName value = some name) :
    (pathExtension value).isSome ↔ '.' ∈ name.tail := by
  rw [pathExtension, h, Option.bind_some, rsplitOnce]
  by_cases hdot : '.' ∈ name
  · obtain ⟨stem, ext, rfl, hext⟩ := exists_last_of_mem hdot
    have htake : (stem ++ '.' :: ext).take ((stem ++ '.' :: ext).length - ext.length - 1) = stem := by
      have hlen : (stem ++ '.' :: ext).length - ext.length - 1 = stem.length := by simp; omega
      rw [hlen, List.take_left']
      rfl
    rw [afterLast_last hext, Option.map_some, Option.bind_some, htake]
    cases stem with
    | nil => simpa using hext
    | cons c stem => simp
  · rw [afterLast_eq_none hdot]
    exact iff_of_false (by simp) fun hc => hdot (List.mem_of_mem_tail hc)

theorem splitOn_value (value : List Char) :
    ∃ init w, splitOn (· = '/') value = init ++ [w] ∧ splitOn (· = '/') (value ++ json) = init ++ [w ++ json] :=
  splitOn_append (by simp [json]) value

theorem isName_append_json (w : List Char) : IsName (w ++ json) := by
  have hlong : 5 ≤ (w ++ json).length := by
    rw [List.length_append]
    exact Nat.le_add_left 5 _
  refine ⟨fun h => ?_, fun h => ?_, fun h => ?_⟩
  · exact absurd (h ▸ hlong) (by decide)
  · exact absurd (h ▸ hlong) (by decide)
  · exact absurd (h ▸ hlong) (by decide)

theorem isName_iff {w : List Char} : IsName w ↔ isNamed w = true ∧ w ≠ ['.', '.'] := by
  simp only [IsName, isNamed, decide_eq_true_eq, and_assoc]

theorem pathFileName_of_last {value w : List Char} {init : List (List Char)}
    (h : splitOn (· = '/') value = init ++ [w]) (hw : IsName w) : pathFileName value = some w := by
  obtain ⟨hnamed, hup⟩ := isName_iff.mp hw
  rw [pathFileName, h, List.filter_append, List.filter_singleton, hnamed]
  simp [hup]

variable {d} {value : List Char}

theorem left_filter : d.left value =
    reduce ((d.names ++ (splitOn (· = '/') value).filter isNamed).map segmentMove) := by
  have hnames : d.names.filter isNamed = d.names :=
    List.filter_eq_self.mpr fun w hw => (isName_iff.mp (d.isName w hw)).1
  have hfilter := reduce_filter (d.names ++ splitOn (· = '/') value) []
  rw [List.append_nil, List.append_nil, List.filter_append, hnames] at hfilter
  exact hfilter.symm

theorem left_of_fileName {name : List Char} (h : pathFileName value = some name) :
    IsName name ∧ ∃ parts, (d.left value).2 = parts ++ [name] := by
  obtain ⟨hlast, hup⟩ := Option.filter_eq_some_iff.mp h
  obtain ⟨init, hinit⟩ := List.getLast?_eq_some_iff.mp hlast
  have hmem : name ∈ (splitOn (· = '/') value).filter isNamed := by rw [hinit]; simp
  have hname : IsName name := isName_iff.mpr ⟨(List.mem_filter.mp hmem).2, by simpa using hup⟩
  refine ⟨hname, (reduce ((d.names ++ init).map segmentMove)).2, ?_⟩
  rw [left_filter, hinit, ← List.append_assoc, List.map_append, List.map_singleton,
    segmentMove_of_isName hname, reduce_concat_down]

theorem head_ne_slash (h : Relative value) : value.head? ≠ some '/' := by
  rcases h with ⟨rest, rfl⟩ | ⟨rest, rfl⟩
  · simp
  · simp

theorem head_append_json (h : Relative value) : (value ++ json).head? ≠ some '/' := by
  rcases h with ⟨rest, rfl⟩ | ⟨rest, rfl⟩
  · simp
  · simp

/-- The path that the code gives an `extends` value. -/
def ConfigDir.extendsPath (d : ConfigDir) (value : List Char) : List Char :=
  normaliseRepoPath (joinPath (joinSlash d.names) (withExt value))

theorem extends_iff_of_extension (hrel : Relative value) {name : List Char}
    (hname : pathFileName value = some name) (hdot : '.' ∈ name.tail) :
    some (d.extendsPath value) = d.extendsTarget value ↔ d.ExtendsPlain value := by
  have hext : withExt value = value := if_pos ((pathExtension_isSome hname).mpr hdot)
  obtain ⟨hisName, parts, hparts⟩ := left_of_fileName (d := d) hname
  have hhead := head_ne_slash hrel
  have hjson : (∃ stem, stem ≠ [] ∧ pathFileName value = some (stem ++ json)) ↔ json <:+ name := by
    rw [hname]
    constructor
    · rintro ⟨stem, -, hstem⟩
      exact ⟨stem, (Option.some.inj hstem).symm⟩
    · rintro ⟨stem, rfl⟩
      refine ⟨stem, ?_, rfl⟩
      rintro rfl
      exact absurd hdot (by decide)
  have hbare : ¬ ∃ name, (splitOn (· = '/') value).getLast? = some name ∧ IsName name ∧ name ≠ json ∧
      '.' ∉ name.tail := by
    rintro ⟨w, hlast, hw, -, hnone⟩
    obtain ⟨init, hinit⟩ := List.getLast?_eq_some_iff.mp hlast
    rw [pathFileName_of_last hinit hw, Option.some.injEq] at hname
    exact hnone (hname ▸ hdot)
  have hplain : d.ExtendsPlain value ↔ (d.left value).1 = 0 ∧ json <:+ name := by
    rw [← hjson]
    constructor
    · rintro ⟨hinside, hnamed⟩
      obtain ⟨ps, hps⟩ := Option.isSome_iff_exists.mp hinside
      exact ⟨by rw [((components_eq_some d).mp hps).2], hnamed.resolve_right hbare⟩
    · rintro ⟨hzero, hnamed⟩
      exact ⟨by rw [components_eq d hhead, if_pos hzero]; rfl, .inl hnamed⟩
  rw [hplain, ConfigDir.extendsPath, hext, normalise_joinPath d hhead, ConfigDir.extendsTarget,
    components_eq d hhead]
  by_cases hzero : (d.left value).1 = 0
  · rw [if_pos hzero, Option.bind_some, hparts, if_neg (by simp), hzero]
    have hsuffix := suffix_joined_iff slash_not_mem_json parts name
    have hstack : stacked 0 (parts ++ [name]) = parts ++ [name] := rfl
    rw [← hsuffix, hstack, and_iff_right rfl]
    split_ifs with hends
    · exact iff_of_true rfl hends
    · refine iff_of_false (fun heq => ?_) hends
      exact absurd (List.self_eq_append_right.mp (Option.some.inj heq)) (by decide)
  · rw [if_neg hzero]
    exact iff_of_false nofun fun hc => hzero hc.1

theorem left_of_split {init : List (List Char)} {w : List Char}
    (h : splitOn (· = '/') value = init ++ [w]) :
    d.left value = reduce ((d.names ++ init).map segmentMove ++ [segmentMove w]) := by
  rw [ConfigDir.left, h, ← List.append_assoc, List.map_append, List.map_singleton]

theorem left_length_le {init : List (List Char)} {w : List Char}
    (h : splitOn (· = '/') value = init ++ [w]) (hw : ¬ IsName w) (hzero : (d.left value).1 = 0) :
    (d.left value).2.length ≤ (reduce ((d.names ++ init).map segmentMove)).2.length := by
  have hmove : segmentMove w = .stay ∨ segmentMove w = .up := by
    unfold segmentMove
    split_ifs with hstay hup
    · exact .inl rfl
    · exact .inr rfl
    · rw [not_or] at hstay
      exact absurd ⟨hstay.1, hstay.2, hup⟩ hw
  have hwalk := walk_empty ((d.names ++ init).map segmentMove ++ [segmentMove w])
  rw [← left_of_split h, if_pos hzero, walk_append] at hwalk
  obtain ⟨rest, hrest, hlast⟩ := Option.bind_eq_some_iff.mp hwalk
  rw [walk_empty] at hrest
  split_ifs at hrest with hinit
  rw [Option.some.injEq] at hrest
  rw [hrest]
  rw [walk_cons] at hlast
  rcases hmove with hstay | hup
  · rw [hstay, step, Option.bind_some, walk_nil, Option.some.injEq] at hlast
    rw [hlast]
  · rw [hup, step] at hlast
    split_ifs at hlast with hnil
    · exact absurd hlast (Option.some_ne_none _).symm
    · rw [Option.bind_some, walk_nil, Option.some.injEq] at hlast
      rw [← hlast, List.length_dropLast]
      exact Nat.sub_le ..

theorem extendsPath_of_bare (hrel : Relative value) (hext : pathExtension value = none)
    {init : List (List Char)} {w : List Char}
    (h : splitOn (· = '/') (value ++ json) = init ++ [w ++ json]) :
    d.extendsPath value =
      joinSlash (stacked (reduce ((d.names ++ init).map segmentMove)).1
        ((reduce ((d.names ++ init).map segmentMove)).2 ++ [w ++ json])) := by
  have hwith : withExt value = value ++ json := if_neg (by rw [hext]; exact Bool.false_ne_true)
  rw [ConfigDir.extendsPath, hwith, normalise_joinPath d (head_append_json hrel), left_of_split h,
    segmentMove_of_isName (isName_append_json w), reduce_concat_down]

theorem stacked_append (up : Nat) (names more : List (List Char)) :
    stacked up (names ++ more) = stacked up names ++ more := (List.append_assoc ..).symm

theorem slashFree_stacked (up : Nat) {names : List (List Char)} (h : SlashFree names) :
    SlashFree (stacked up names) :=
  SlashFree.append (fun w hw => by rw [List.eq_of_mem_replicate hw]; decide) h

theorem stem_of_bare (hext : pathExtension value = none) :
    ¬ ∃ stem, stem ≠ [] ∧ pathFileName value = some (stem ++ json) := by
  rintro ⟨stem, hne, hname⟩
  obtain ⟨c, rest, rfl⟩ := List.exists_cons_of_ne_nil hne
  have hdot := (pathExtension_isSome hname).mpr (by simp [json])
  rw [hext] at hdot
  exact Bool.false_ne_true hdot

/-- A name without an extension ends in `.json` only when it is that. -/
theorem extends_iff_of_bare_name (hrel : Relative value) (hext : pathExtension value = none)
    {init : List (List Char)} {w : List Char} (hsplit : splitOn (· = '/') value = init ++ [w])
    (hsplit' : splitOn (· = '/') (value ++ json) = init ++ [w ++ json]) (hw : IsName w) :
    some (d.extendsPath value) = d.extendsTarget value ↔ d.ExtendsPlain value := by
  have hhead := head_ne_slash hrel
  have hstem := stem_of_bare hext
  have hlast : (splitOn (· = '/') value).getLast? = some w := by rw [hsplit, List.getLast?_concat]
  have hname := pathFileName_of_last hsplit hw
  have hnodot : '.' ∉ w.tail := by
    intro hc
    have hsome := (pathExtension_isSome hname).mpr hc
    rw [hext] at hsome
    exact Bool.false_ne_true hsome
  have hends : json <:+ w ↔ w = json := by
    refine ⟨fun ⟨stem, hstem'⟩ => ?_, fun h => h ▸ List.suffix_refl _⟩
    by_contra hne
    exact hstem ⟨stem, fun hnil => hne (by rw [← hstem', hnil]; rfl), by rw [hname, hstem']⟩
  have hplain : d.ExtendsPlain value ↔ (d.left value).1 = 0 ∧ ¬ json <:+ w := by
    rw [hends]
    constructor
    · rintro ⟨hinside, hnamed⟩
      obtain ⟨ps, hps⟩ := Option.isSome_iff_exists.mp hinside
      obtain ⟨name, hname', -, hne, -⟩ := hnamed.resolve_left hstem
      rw [hlast, Option.some.injEq] at hname'
      exact ⟨by rw [((components_eq_some d).mp hps).2], hname' ▸ hne⟩
    · rintro ⟨hzero, hne⟩
      exact ⟨by rw [components_eq d hhead, if_pos hzero]; rfl, .inr ⟨w, hlast, hw, hne, hnodot⟩⟩
  rw [hplain, extendsPath_of_bare hrel hext hsplit', ConfigDir.extendsTarget, components_eq d hhead,
    left_of_split hsplit, segmentMove_of_isName hw, reduce_concat_down]
  dsimp only
  by_cases hzero : (reduce ((d.names ++ init).map segmentMove)).1 = 0
  · rw [if_pos hzero, Option.bind_some, if_neg (by simp), hzero, and_iff_right rfl, joinSlash_concat,
      ← suffix_joined_iff slash_not_mem_json (reduce ((d.names ++ init).map segmentMove)).2 w]
    split_ifs with hjson
    · refine iff_of_false (fun heq => ?_) (not_not.mpr hjson)
      rw [Option.some.injEq, stacked, List.replicate_zero, List.nil_append, ← joinSlash_concat] at heq
      exact absurd (List.self_eq_append_right.mp heq.symm) (by decide)
    · exact iff_of_true rfl hjson
  · rw [if_neg hzero]
    exact iff_of_false nofun fun hc => hzero hc.1

theorem extendsTarget_eq_some {path : List Char} (hhead : value.head? ≠ some '/')
    (h : d.extendsTarget value = some path) :
    (d.left value).1 = 0 ∧ ∃ parts, SlashFree parts ∧ parts ≠ [] ∧
      parts.length = (d.left value).2.length ∧ path = joinSlash parts := by
  have hfree := slashFree_left d value
  rw [ConfigDir.extendsTarget, components_eq d hhead] at h
  by_cases hzero : (d.left value).1 = 0
  · rw [if_pos hzero, Option.bind_some] at h
    split_ifs at h with hnil hjson
    · exact ⟨hzero, _, hfree, hnil, rfl, (Option.some.inj h).symm⟩
    · obtain ⟨front, b, hfront⟩ : ∃ front b, (d.left value).2 = front ++ [b] :=
        ⟨_, _, (List.dropLast_append_getLast hnil).symm⟩
      rw [hfront, joinSlash_concat, Option.some.injEq] at h
      rw [hfront] at hfree ⊢
      refine ⟨hzero, front ++ [b ++ json], ?_, by simp, by simp, h.symm⟩
      refine SlashFree.append (fun v hv => hfree v (by simp [hv])) (List.forall_mem_singleton.mpr ?_)
      rw [List.mem_append, not_or]
      exact ⟨hfree b (by simp), slash_not_mem_json⟩
  · rw [if_neg hzero] at h
    exact absurd h nofun

/-- A value that ends in no name: the code goes down to a file called after its last piece. -/
theorem extends_iff_of_no_name (hrel : Relative value) (hext : pathExtension value = none)
    {init : List (List Char)} {w : List Char} (hsplit : splitOn (· = '/') value = init ++ [w])
    (hsplit' : splitOn (· = '/') (value ++ json) = init ++ [w ++ json]) (hw : ¬ IsName w) :
    some (d.extendsPath value) = d.extendsTarget value ↔ d.ExtendsPlain value := by
  have hbare : ¬ d.ExtendsPlain value := by
    rintro ⟨-, hnamed⟩
    obtain ⟨name, hlast, hisName, -⟩ := hnamed.resolve_left (stem_of_bare hext)
    rw [hsplit, List.getLast?_concat, Option.some.injEq] at hlast
    exact hw (hlast ▸ hisName)
  refine iff_of_false (fun heq => ?_) hbare
  obtain ⟨hzero, parts, hparts, hne, hlength, hjoin⟩ :=
    extendsTarget_eq_some (head_ne_slash hrel) heq.symm
  have hinit : SlashFree (d.names ++ init) :=
    SlashFree.append d.slashFree fun v hv => slashFree_splitOn value v (by rw [hsplit]; simp [hv])
  have hlastFree : SlashFree [w ++ json] :=
    List.forall_mem_singleton.mpr (slashFree_splitOn (value ++ json) _ (by rw [hsplit']; simp))
  rw [extendsPath_of_bare hrel hext hsplit'] at hjoin
  -- The path of the code has a component more.
  have hsame := joined_inj (slashFree_stacked _ (SlashFree.append (slashFree_reduce hinit) hlastFree)) hparts
    (by rw [stacked_append]; simp) hne hjoin
  have hlen := congrArg List.length hsame
  rw [stacked_append, List.length_append, stacked, List.length_append, List.length_singleton] at hlen
  have hle := left_length_le hsplit hw hzero
  omega

theorem extends_iff (hrel : Relative value) :
    some (d.extendsPath value) = d.extendsTarget value ↔ d.ExtendsPlain value := by
  cases hext : pathExtension value with
  | none =>
    obtain ⟨init, w, hsplit, hsplit'⟩ := splitOn_value value
    by_cases hw : IsName w
    · exact extends_iff_of_bare_name hrel hext hsplit hsplit' hw
    · exact extends_iff_of_no_name hrel hext hsplit hsplit' hw
  | some ext =>
    have hsome : (pathExtension value).isSome := by rw [hext]; rfl
    obtain ⟨name, hname, -⟩ := Option.bind_eq_some_iff.mp hext
    exact extends_iff_of_extension hrel hname ((pathExtension_isSome hname).mp hsome)

/-! ## A whole config -/

variable {env : Env} {corpus : String} {fileId : NodeId}

theorem configure_inj {path path' : List Char}
    (h : configure env corpus fileId path = configure env corpus fileId path') : path = path' := by
  have hpath := congrArg (fun p => p.1.vname.path) h
  exact String.ofList_injective hpath

theorem push_eq_target_iff {out : ParseOutput} {path : List Char} {target : Option (List Char)} :
    out.push (configure env corpus fileId path) = ParseOutput.target env corpus fileId out target ↔
      some path = target := by
  cases target with
  | none =>
    refine iff_of_false (fun h => ?_) nofun
    have hnodes := congrArg (fun o => o.nodes.length) h
    simp [ParseOutput.target, ParseOutput.push] at hnodes
  | some path' =>
    rw [Option.some.injEq]
    refine ⟨fun h => ?_, fun h => by rw [h]; rfl⟩
    have hnodes := List.append_cancel_left (congrArg ParseOutput.nodes h)
    have hedges := List.append_cancel_left (congrArg ParseOutput.edges h)
    rw [List.cons.injEq] at hnodes hedges
    exact configure_inj (Prod.ext hnodes.1 hedges.1)

theorem push_nodes (f : List Char → List Char) (values : List (List Char)) (out : ParseOutput) :
    (values.foldl (fun out value => out.push (configure env corpus fileId (f value))) out).nodes =
      out.nodes ++ values.map fun value => (configure env corpus fileId (f value)).1 := by
  induction values generalizing out with
  | nil => exact (List.append_nil _).symm
  | cons value values ih =>
    rw [List.foldl_cons, ih, List.map_cons, ParseOutput.push, List.append_assoc]
    rfl

theorem target_nodes (g : List Char → Option (List Char)) (values : List (List Char)) (out : ParseOutput) :
    (values.foldl (fun out value => ParseOutput.target env corpus fileId out (g value)) out).nodes =
      out.nodes ++ (values.filterMap g).map fun path => (configure env corpus fileId path).1 := by
  induction values generalizing out with
  | nil => exact (List.append_nil _).symm
  | cons value values ih =>
    rw [List.foldl_cons, ih]
    cases hg : g value with
    | none => rw [List.filterMap_cons_none hg]; rfl
    | some path =>
      rw [List.filterMap_cons_some hg, List.map_cons, ParseOutput.target, ParseOutput.push,
        List.append_assoc]
      rfl

theorem forall_of_map_eq_filterMap {α β : Type} {f : α → β} {g : α → Option β} {l : List α}
    (h : l.map f = l.filterMap g) : ∀ a ∈ l, some (f a) = g a := by
  induction l with
  | nil => exact fun a ha => absurd ha List.not_mem_nil
  | cons a l ih =>
    cases hg : g a with
    | none =>
      rw [List.filterMap_cons_none hg] at h
      have hlen := congrArg List.length h
      have hle := List.length_filterMap_le g l
      rw [List.length_map, List.length_cons] at hlen
      omega
    | some b =>
      rw [List.filterMap_cons_some hg, List.map_cons, List.cons.injEq] at h
      rw [List.forall_mem_cons, hg, h.1]
      exact ⟨rfl, ih h.2⟩

/-- Every value pushes, so that the pushes are those of the targets only when each value has one. -/
theorem pushes_eq_targets_iff (f : List Char → List Char) (g : List Char → Option (List Char))
    (values : List (List Char)) (out : ParseOutput) :
    values.foldl (fun out value => out.push (configure env corpus fileId (f value))) out =
        values.foldl (fun out value => ParseOutput.target env corpus fileId out (g value)) out ↔
      ∀ value ∈ values, some (f value) = g value := by
  constructor
  · intro h
    have hnodes := congrArg ParseOutput.nodes h
    rw [push_nodes, target_nodes] at hnodes
    have hpaths : values.map f = values.filterMap g := by
      have hmap := congrArg (List.map fun n : Node => n.vname.path) (List.append_cancel_left hnodes)
      rw [List.map_map, List.map_map] at hmap
      have hof : (values.map f).map String.ofList = (values.filterMap g).map String.ofList := by
        rw [List.map_map]
        exact hmap
      exact List.map_injective_iff.mpr (fun _ _ heq => String.ofList_injective heq) hof
    exact forall_of_map_eq_filterMap hpaths
  · intro h
    exact List.foldl_ext _ _ _ fun out value hvalue => push_eq_target_iff.mpr (h value hvalue)

/-- A config points at the configs that TypeScript loads exactly when its relative `extends` value and
its references are plain. -/
theorem points_at_configs_iff (env : Env) (corpus : String) (fileId : NodeId) (d : ConfigDir) (v : Value) :
    PointsAtConfigs env corpus fileId d v ↔
      (∀ value, (v.get "extends").bind Value.asStr = some value → Relative value → d.ExtendsPlain value) ∧
        ∀ value ∈ referencePaths v, d.ReferencePlain value := by
  have hextends {value : List Char} (hvalue : (v.get "extends").bind Value.asStr = some value)
      (hrel : Relative value) (out : ParseOutput) :
      onExtends env corpus ((pathParent d.vnamePath).getD []) fileId v out =
          ParseOutput.target env corpus fileId out (d.extendsTarget value) ↔ d.ExtendsPlain value := by
    have hdot : value.head? = some '.' := by
      rcases hrel with ⟨rest, rfl⟩ | ⟨rest, rfl⟩ <;> rfl
    rw [← extends_iff hrel, onExtends, hvalue, pathParent_vnamePath]
    dsimp only
    rw [if_pos hdot]
    exact push_eq_target_iff
  have hreferences (out : ParseOutput) :
      parseTsconfigJson env corpus d.vnamePath fileId v out =
          (referencePaths v).foldl
            (fun out value => ParseOutput.target env corpus fileId out (d.referenceTarget value))
            (onExtends env corpus ((pathParent d.vnamePath).getD []) fileId v out) ↔
        ∀ value ∈ referencePaths v, d.ReferencePlain value := by
    rw [parseTsconfigJson, onReferences, pushes_eq_targets_iff, pathParent_vnamePath]
    exact forall₂_congr fun value _ => reference_iff d value
  constructor
  · intro h
    exact ⟨fun value hvalue hrel => (hextends hvalue hrel ⟨[], []⟩).mp (h.extends_ value hvalue hrel _),
      (hreferences ⟨[], []⟩).mp (h.references _)⟩
  · rintro ⟨hplain, hrefs⟩
    exact ⟨fun value hvalue hrel out => (hextends hvalue hrel out).mpr (hplain value hvalue hrel),
      fun out => (hreferences out).mpr hrefs⟩

def rootConfig : ConfigDir := ⟨[], by simp [AllNames], by simp⟩

/-- A base config with a second dot in its name gets no extension. -/
theorem dotted_base_stays :
    ¬ ∀ (env : Env) (corpus : String) (fileId : NodeId) (d : ConfigDir) (v : Value),
      PointsAtConfigs env corpus fileId d v := by
  intro h
  have hpoint := (h ⟨fun _ => 0, id, Char.isAlphanum⟩ "" 0 rootConfig
    (.obj [("extends", .str "./tsconfig.base".toList)])).extends_ "./tsconfig.base".toList rfl
    (.inl (by decide)) ⟨[], []⟩
  revert hpoint
  decide

end Travsr.Analysis.Tsconfig
