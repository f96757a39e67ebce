import Travsr.Core.RelativeImport
import Travsr.Lib.Minimal
import Mathlib.Data.Char
import Mathlib.Order.WithBot

namespace Travsr.PluginHost

open Travsr.Core Core.Text

/-! ### The directories of a repository -/

/-- A `..` comes before every name. -/
abbrev Component := WithBot (List Char)

abbrev Directory := List Component

/-- `Path::components`. -/
def pathComponents (path : String) : Directory :=
  ((splitOn (· = '/') path.toList).filter isNamed).map fun w => if w = ['.', '.'] then ⊥ else w

/-- `Path::join`: an absolute path takes the other's place. -/
def joinPath (dir : Directory) (path : String) : Directory :=
  if path.toList.head? = some '/' then pathComponents path else dir ++ pathComponents path

/-! ### `build_manifests` -/

def buildManifests (language : String) : List String :=
  if language = "java" then
    ["pom.xml", "build.gradle", "build.gradle.kts", "settings.gradle", "settings.gradle.kts"]
  else if language = "scala" then ["build.sbt"]
  else if language = "go" then ["go.mod"]
  else if language = "rust" then ["Cargo.toml"]
  else if language = "php" then ["composer.json"]
  else if language = "c" ∨ language = "cpp" then ["compile_commands.json"]
  else []

/-! ### `is_own_cargo_workspace` -/

/-- `toml::Value`; numbers, booleans and dates are one case. -/
inductive Toml where
  | string (text : String)
  | array (items : List Toml)
  | table (entries : List (String × Toml))
  | scalar

/-- A `path` key with a text that leads out of the folder. -/
def Toml.isOutwardPath (key : String) : Toml → Bool
  | .string p => key = "path" && "..".toList.isPrefixOf p.toList
  | _ => false

mutual

/-- `reaches_out`. -/
def Toml.reachesOut : Toml → Bool
  | .table t => anyEntryReachesOut t
  | .array a => anyItemReachesOut a
  | _ => false

def Toml.anyItemReachesOut : List Toml → Bool
  | [] => false
  | v :: rest => v.reachesOut || anyItemReachesOut rest

def Toml.anyEntryReachesOut : List (String × Toml) → Bool
  | [] => false
  | (k, v) :: rest => (v.isOutwardPath k || v.reachesOut) || anyEntryReachesOut rest

end

/-- `toml::Value::get` of a key. -/
def Toml.get (v : Toml) (key : String) : Option Toml :=
  match v with
  | .table t => (t.find? fun e => e.1 = key).map Prod.snd
  | _ => none

/-- What the file system answers: which paths are files, and the text of those that can be read. -/
structure Disk where
  isFile : Directory → Bool
  readToString : Directory → Option String

variable (disk : Disk) (parseToml : String → Option Toml)

def isOwnCargoWorkspace (dir : Directory) : Bool :=
  ((disk.readToString (joinPath dir "Cargo.toml")).bind parseToml).any fun t =>
    (t.get "workspace").isSome && !t.reachesOut

/-! ### `build_roots` -/

def holdsManifest (manifests : List String) (dir : Directory) : Bool :=
  manifests.any fun m => disk.isFile (joinPath dir m)

structure Walk where
  walked : List Directory
  found : List Directory

/-- The walk up from a path, its components last to first. At the root directory `pop` fails. -/
def climb (repoRoot : Directory) (holds : Directory → Bool) : List Component → Walk → Walk
  | [], w => w
  | _ :: up, w =>
    let dir := up.reverse
    if repoRoot <+: dir ∧ dir ∉ w.walked then
      climb repoRoot holds up
        ⟨dir :: w.walked, if holds dir then w.found ++ [dir] else w.found⟩
    else w

def walkFiles (repoRoot : Directory) (holds : Directory → Bool) (files : List String) : Walk :=
  files.foldl (fun w rel => climb repoRoot holds (joinPath repoRoot rel).reverse w) ⟨[], []⟩

def buildRoots (repoRoot : Directory) (files manifests : List String) : List Directory :=
  if manifests = [] then []
  else
    let found := (walkFiles repoRoot (holdsManifest disk manifests) files).found
    Minimal.keepAll (· <+: ·) (isOwnCargoWorkspace disk parseToml)
      (found.insertionSort (· ≤ ·))

/-- `root_sources`: a header alone makes no build root. -/
def rootSources (files : List String) : List String :=
  files.filter fun f => !endsWith f ".h"

def invokeRoots (repoRoot : Directory) (files : List String) (language : String) :
    List Directory :=
  let roots := buildRoots disk parseToml repoRoot (rootSources files) (buildManifests language)
  if roots = [] then [repoRoot] else roots

/-! ### The walk -/

section walk

variable {repoRoot : Directory} {holds : Directory → Bool}

/-- The directory lies at or below the root of the repository and above the path. -/
def OnTheWay (repoRoot path dir : Directory) : Prop :=
  repoRoot <+: dir ∧ dir <+: path ∧ dir ≠ path

theorem onTheWay_concat (up : List Component) (c : Component) (dir : Directory) :
    OnTheWay repoRoot (c :: up).reverse dir ↔ repoRoot <+: dir ∧ dir <+: up.reverse := by
  simp only [OnTheWay, List.reverse_cons]
  apply and_congr Iff.rfl
  rw [List.prefix_concat_iff]
  constructor
  · intro ⟨h, hne⟩
    exact h.resolve_left hne
  · intro h
    refine ⟨.inr h, fun heq => ?_⟩
    have := h.length_le
    simp [heq] at this

/-- Every directory on the way to a walked one that is shorter than `n` was walked. -/
def ClosedBelow (repoRoot : Directory) (n : Nat) (walked : List Directory) : Prop :=
  ∀ d ∈ walked, d.length < n → ∀ e, repoRoot <+: e → e <+: d → e ∈ walked

theorem mem_walked_climb {rev : List Component} {w : Walk}
    (closed : ClosedBelow repoRoot rev.length w.walked) (d : Directory) :
    d ∈ (climb repoRoot holds rev w).walked ↔
      d ∈ w.walked ∨ OnTheWay repoRoot rev.reverse d := by
  induction rev generalizing w with
  | nil => simp [climb, OnTheWay]
  | cons c up ih =>
    rw [onTheWay_concat]
    simp only [climb]
    by_cases hroot : repoRoot <+: up.reverse
    · by_cases hwalked : up.reverse ∈ w.walked
      · -- what lies above a walked directory was walked with it
        have hshort : up.reverse.length < (c :: up).length := by simp
        simpa [hwalked] using closed _ hwalked hshort d
      · have hstep : ClosedBelow repoRoot up.length (up.reverse :: w.walked) := by
          intro a ha hlen e hre hea
          rcases List.mem_cons.mp ha with rfl | ha
          · simp at hlen
          · apply List.mem_cons_of_mem
            exact closed a ha (by simp only [List.length_cons]; omega) e hre hea
        rw [if_pos ⟨hroot, hwalked⟩, ih hstep]
        by_cases hd : d = up.reverse
        · simp [hd, hroot]
        · simp [hd, OnTheWay]
    · have : ¬ (repoRoot <+: d ∧ d <+: up.reverse) := fun h => hroot (h.1.trans h.2)
      simp [hroot, this]

/-- What is found are the walked directories that hold a manifest, each once. -/
structure Walk.Sound (holds : Directory → Bool) (w : Walk) : Prop where
  mem_found : ∀ d, d ∈ w.found ↔ d ∈ w.walked ∧ holds d
  nodup : w.found.Nodup

theorem Walk.Sound.visit {w : Walk} (sound : w.Sound holds) {dir : Directory}
    (hnew : dir ∉ w.walked) :
    Walk.Sound holds ⟨dir :: w.walked, if holds dir then w.found ++ [dir] else w.found⟩ := by
  have hfresh : dir ∉ w.found := fun h => hnew ((sound.mem_found dir).mp h).1
  by_cases hd : holds dir
  · simp only [hd, if_true]
    refine ⟨fun d => ?_, List.nodup_append.mpr ⟨sound.nodup, by simp, ?_⟩⟩
    · have := sound.mem_found d
      grind
    · intro a ha b hb heq
      exact hfresh (List.mem_singleton.mp hb ▸ heq ▸ ha)
  · simp only [hd]
    refine ⟨fun d => ?_, sound.nodup⟩
    have := sound.mem_found d
    grind

theorem Walk.Sound.climb {rev : List Component} {w : Walk} (sound : w.Sound holds) :
    (climb repoRoot holds rev w).Sound holds := by
  induction rev generalizing w with
  | nil => exact sound
  | cons c up ih =>
    simp only [PluginHost.climb]
    split
    · case isTrue hnew => exact ih (sound.visit hnew.2)
    · exact sound

theorem closed_climb {rev : List Component} {w : Walk}
    (closed : ∀ n, ClosedBelow repoRoot n w.walked) (n : Nat) :
    ClosedBelow repoRoot n (climb repoRoot holds rev w).walked := by
  intro d hd hlen e hre hed
  rw [mem_walked_climb (closed _)] at hd ⊢
  rcases hd with hd | hd
  · exact .inl (closed n d hd hlen e hre hed)
  · refine .inr ⟨hre, hed.trans hd.2.1, fun heq => hd.2.2 ?_⟩
    rw [heq] at hed
    exact hd.2.1.eq_of_length (hd.2.1.length_le.antisymm hed.length_le)

theorem walkFiles_spec (files : List String) (w : Walk) (sound : w.Sound holds)
    (closed : ∀ n, ClosedBelow repoRoot n w.walked) :
    let after := files.foldl
      (fun w rel => climb repoRoot holds (joinPath repoRoot rel).reverse w) w
    after.Sound holds ∧ ∀ d, d ∈ after.walked ↔
      d ∈ w.walked ∨ ∃ rel ∈ files, OnTheWay repoRoot (joinPath repoRoot rel) d := by
  induction files generalizing w with
  | nil => simpa using sound
  | cons rel files ih =>
    have hnext : (climb repoRoot holds (joinPath repoRoot rel).reverse w).Sound holds := sound.climb
    obtain ⟨hsound, hmem⟩ := ih _ hnext (closed_climb closed)
    refine ⟨hsound, fun d => ?_⟩
    rw [List.foldl_cons, hmem, mem_walked_climb (closed _), List.reverse_reverse]
    simp [or_assoc]

end walk

/-! ### The roots -/

section roots

/-- The directory holds a manifest and lies at or above one of the files, inside the repository. -/
def Qualifies (repoRoot : Directory) (files manifests : List String) (dir : Directory) : Prop :=
  holdsManifest disk manifests dir ∧
    ∃ rel ∈ files, OnTheWay repoRoot (joinPath repoRoot rel) dir

variable {disk parseToml} {repoRoot : Directory} {files manifests : List String}

theorem sound_walkFiles :
    (walkFiles repoRoot (holdsManifest disk manifests) files).Sound
      (holdsManifest disk manifests) :=
  (walkFiles_spec files ⟨[], []⟩ ⟨by simp, by simp⟩ (by simp [ClosedBelow])).1

theorem mem_found_walkFiles (dir : Directory) :
    dir ∈ (walkFiles repoRoot (holdsManifest disk manifests) files).found ↔
      Qualifies disk repoRoot files manifests dir := by
  obtain ⟨hsound, hmem⟩ := @walkFiles_spec repoRoot (holdsManifest disk manifests) files ⟨[], []⟩
    ⟨by simp, by simp⟩ (by simp [ClosedBelow])
  rw [walkFiles, hsound.mem_found, hmem]
  simp [Qualifies, and_comm]

/-- A qualifying directory is a root when no other lies above it, and when it is its own cargo
workspace. -/
theorem mem_buildRoots (dir : Directory) :
    dir ∈ buildRoots disk parseToml repoRoot files manifests ↔
      Qualifies disk repoRoot files manifests dir ∧
        (isOwnCargoWorkspace disk parseToml dir ∨
          ∀ outer, Qualifies disk repoRoot files manifests outer → outer <+: dir → outer = dir) := by
  by_cases hm : manifests = []
  · simp [buildRoots, hm, Qualifies, holdsManifest]
  · have hsound : (walkFiles repoRoot (holdsManifest disk manifests) files).Sound _ :=
      sound_walkFiles
    have hnodup := hsound.nodup
    have hsorted := Minimal.no_prefix_after
      ((List.perm_insertionSort (· ≤ ·) _).nodup_iff.mpr hnodup) (Minimal.sortedLists _)
    rw [buildRoots, if_neg hm, Minimal.mem_keepAll hsorted]
    simp only [List.mem_insertionSort, mem_found_walkFiles]

theorem nodup_buildRoots : (buildRoots disk parseToml repoRoot files manifests).Nodup := by
  rw [buildRoots]
  split
  · exact List.nodup_nil
  · apply (Minimal.sublist_keepAll _).nodup
    exact (List.perm_insertionSort (· ≤ ·) _).nodup_iff.mpr sound_walkFiles.nodup

theorem buildRoots_congr {files' : List String} (h : ∀ f, f ∈ files ↔ f ∈ files') :
    buildRoots disk parseToml repoRoot files manifests =
      buildRoots disk parseToml repoRoot files' manifests := by
  have hfound : ∀ d, d ∈ (walkFiles repoRoot (holdsManifest disk manifests) files).found ↔
      d ∈ (walkFiles repoRoot (holdsManifest disk manifests) files').found := by
    intro d
    simp only [mem_found_walkFiles, Qualifies, h]
  simp only [buildRoots,
    Minimal.sort_congr sound_walkFiles.nodup sound_walkFiles.nodup hfound]

/-- Outermost of the qualifying directories. -/
def Outermost (disk : Disk) (repoRoot : Directory) (files manifests : List String)
    (dir : Directory) : Prop :=
  Qualifies disk repoRoot files manifests dir ∧
    ∀ outer, Qualifies disk repoRoot files manifests outer → outer <+: dir → outer = dir

theorem exists_outermost {dir : Directory} (h : Qualifies disk repoRoot files manifests dir) :
    ∃ outer, Outermost disk repoRoot files manifests outer ∧ outer <+: dir := by
  induction hn : dir.length using Nat.strong_induction_on generalizing dir with
  | _ n ih =>
    by_cases hout : Outermost disk repoRoot files manifests dir
    · exact ⟨dir, hout, List.prefix_rfl⟩
    · obtain ⟨above, habove, hpre, hne⟩ : ∃ above, Qualifies disk repoRoot files manifests above ∧
          above <+: dir ∧ above ≠ dir := by
        by_contra hno
        exact hout ⟨h, fun o ho hpre => by_contra fun hne => hno ⟨o, ho, hpre, hne⟩⟩
      have hlt : above.length < n := by
        have hle := hpre.length_le
        have : above.length ≠ dir.length := fun heq => hne (hpre.eq_of_length heq)
        omega
      obtain ⟨outer, houter, hle⟩ := ih _ hlt habove rfl
      exact ⟨outer, houter, hle.trans hpre⟩

/-- The roots are the outermost qualifying directories, so that none lies inside another and each
file with a manifest above it lies under one of them, in whatever order the files come. -/
structure PartitionsSources (disk : Disk) (parseToml : String → Option Toml)
    (repoRoot : Directory) (files manifests : List String) : Prop where
  outermost : ∀ dir, dir ∈ buildRoots disk parseToml repoRoot files manifests ↔
    Outermost disk repoRoot files manifests dir
  distinct : (buildRoots disk parseToml repoRoot files manifests).Nodup
  apart : ∀ a ∈ buildRoots disk parseToml repoRoot files manifests,
    ∀ b ∈ buildRoots disk parseToml repoRoot files manifests, a <+: b → a = b
  covered : ∀ rel ∈ files,
    (∃ dir, holdsManifest disk manifests dir ∧ OnTheWay repoRoot (joinPath repoRoot rel) dir) →
    ∃! root, root ∈ buildRoots disk parseToml repoRoot files manifests ∧
      OnTheWay repoRoot (joinPath repoRoot rel) root
  orderFree : ∀ files', files'.Perm files →
    buildRoots disk parseToml repoRoot files' manifests =
      buildRoots disk parseToml repoRoot files manifests

/-- A directory that qualifies inside another one has a `Cargo.toml` that starts a workspace. -/
def HoldsNestedWorkspace (disk : Disk) (parseToml : String → Option Toml) (repoRoot : Directory)
    (files manifests : List String) : Prop :=
  ∃ outer inner, Qualifies disk repoRoot files manifests outer ∧
    Qualifies disk repoRoot files manifests inner ∧ outer <+: inner ∧ outer ≠ inner ∧
      isOwnCargoWorkspace disk parseToml inner

theorem OnTheWay.above {path dir outer : Directory} (h : OnTheWay repoRoot path dir)
    (hroot : repoRoot <+: outer) (hpre : outer <+: dir) : OnTheWay repoRoot path outer := by
  refine ⟨hroot, hpre.trans h.2.1, fun heq => h.2.2 ?_⟩
  rw [heq] at hpre
  exact h.2.1.eq_of_length (h.2.1.length_le.antisymm hpre.length_le)

theorem covered_of_outermost
    (h : ∀ dir, dir ∈ buildRoots disk parseToml repoRoot files manifests ↔
      Outermost disk repoRoot files manifests dir) {rel : String} (hrel : rel ∈ files)
    {dir : Directory} (hdir : holdsManifest disk manifests dir)
    (hway : OnTheWay repoRoot (joinPath repoRoot rel) dir) :
    ∃! root, root ∈ buildRoots disk parseToml repoRoot files manifests ∧
      OnTheWay repoRoot (joinPath repoRoot rel) root := by
  obtain ⟨root, hroot, hpre⟩ := exists_outermost ⟨hdir, rel, hrel, hway⟩
  obtain ⟨_, _, _, hbelow⟩ := hroot.1
  refine ⟨root, ⟨(h root).mpr hroot, hway.above hbelow.1 hpre⟩, fun other ⟨hother, howay⟩ => ?_⟩
  -- two roots above one file are one inside the other
  have hout := (h other).mp hother
  rcases List.prefix_or_prefix_of_prefix howay.2.1 (hway.above hbelow.1 hpre).2.1 with hle | hle
  · exact hroot.2 other hout.1 hle
  · exact (hout.2 root hroot.1 hle).symm

/-- The roots partition the sources exactly when no cargo workspace lies in a qualifying directory
below another one; the exception is made whatever the language. -/
theorem partitionsSources_iff (disk : Disk) (parseToml : String → Option Toml)
    (repoRoot : Directory) (files : List String) (language : String) :
    PartitionsSources disk parseToml repoRoot files (buildManifests language) ↔
      ¬ HoldsNestedWorkspace disk parseToml repoRoot files (buildManifests language) := by
  constructor
  · intro h ⟨outer, inner, houter, hinner, hpre, hne, hown⟩
    have hroot := (mem_buildRoots inner).mpr ⟨hinner, .inl hown⟩
    exact hne (((h.outermost inner).mp hroot).2 outer houter hpre)
  · intro hno
    have hout : ∀ dir, dir ∈ buildRoots disk parseToml repoRoot files (buildManifests language) ↔
        Outermost disk repoRoot files (buildManifests language) dir := by
      intro dir
      rw [mem_buildRoots]
      apply and_congr_right
      intro hq
      apply or_iff_right_of_imp
      intro hown outer houter hpre
      by_contra hne
      exact hno ⟨outer, dir, houter, hq, hpre, hne, hown⟩
    exact {
      outermost := hout
      distinct := nodup_buildRoots
      apart := fun a ha b hb hpre => ((hout b).mp hb).2 a ((hout a).mp ha).1 hpre
      covered := fun rel hrel ⟨dir, hdir, hway⟩ => covered_of_outermost hout hrel hdir hway
      orderFree := fun files' hperm => buildRoots_congr fun f => hperm.mem_iff }

/-- A Maven module below another one, with a cargo workspace beside its sources. -/
def mixedRepository : Disk where
  isFile p := p = pathComponents "/r/pom.xml" ∨ p = pathComponents "/r/gen/pom.xml"
  readToString p :=
    if p = pathComponents "/r/gen/Cargo.toml" then some "[workspace]\n" else none

/-- The text of `mixedRepository` as the TOML parser reads it. -/
def parseWorkspace (text : String) : Option Toml :=
  if text = "[workspace]\n" then some (.table [("workspace", .table [])]) else none

theorem java_module_beside_workspace_is_second_root :
    ¬ PartitionsSources mixedRepository parseWorkspace (pathComponents "/r") ["gen/src/Gen.java"]
      (buildManifests "java") := by
  intro h
  have hroots : buildRoots mixedRepository parseWorkspace (pathComponents "/r")
      ["gen/src/Gen.java"] (buildManifests "java") =
        [pathComponents "/r", pathComponents "/r/gen"] := by
    decide
  have := h.apart (pathComponents "/r") (by simp [hroots]) (pathComponents "/r/gen")
    (by simp [hroots]) (by decide)
  exact absurd this (by decide)

end roots

end Travsr.PluginHost
