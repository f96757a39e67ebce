import Travsr.Mcp.BlastTraversal

namespace Travsr.Mcp

open Travsr.Core Travsr.Core.Text Travsr.Store Alternation

variable {s : SqliteStore} {r : Reader} {path f : String} {x : NodeId}

/-! ### The closure around a file -/

def pathOf (s : SqliteStore) (x : NodeId) : Option String :=
  (s.nodes.find? x).map fun n => n.vname.path

/-- The least set around some nodes that is closed under followed edges and under the importers of
the paths of its nodes. -/
inductive Affects (s : SqliteStore) (accepts : NodeRow → String → Prop) (seeds : NodeId → Prop) :
    NodeId → Prop where
  | seed {x : NodeId} : seeds x → Affects s accepts seeds x
  | follow {x y : NodeId} : Affects s accepts seeds x → Follows s x y → Affects s accepts seeds y
  | imported {x y : NodeId} {f : String} : Affects s accepts seeds x → pathOf s x = some f →
      ImportedBy s accepts f y → Affects s accepts seeds y

/-- The resolver of the import's language accepts the file. -/
def Resolves (row : NodeRow) (f : String) : Prop := importResolvesTo row f = true

def StoredAt (s : SqliteStore) (path : String) (x : NodeId) : Prop :=
  ∃ n, n ∈ s.nodes ∧ n.id = x ∧ n.vname.path = path

/-- Of the nodes at a path `nodes_at_path` leaves the chunks of documents out. -/
def SeededAt (s : SqliteStore) (path : String) (x : NodeId) : Prop :=
  ∃ n, n ∈ s.nodes ∧ n.id = x ∧ n.vname.path = path ∧ n.kind ≠ "doc-chunk"

theorem SeededAt.storedAt (h : SeededAt s path x) : StoredAt s path x := by
  obtain ⟨n, hn, hid, hpath, -⟩ := h
  exact ⟨n, hn, hid, hpath⟩

theorem Affects.mono {accepts accepts' : NodeRow → String → Prop} {seeds seeds' : NodeId → Prop}
    (hseeds : ∀ x, seeds x → seeds' x)
    (haccepts : ∀ x f row, Affects s accepts' seeds' x → pathOf s x = some f → row ∈ s.nodes →
      row.kind = "import" → accepts row f → accepts' row f)
    (h : Affects s accepts seeds x) : Affects s accepts' seeds' x := by
  induction h with
  | seed hx => exact .seed (hseeds _ hx)
  | follow _ hstep ih => exact ih.follow hstep
  | imported _ hpath hstep ih =>
    obtain ⟨row, hrow, hkind, hacc, hedge⟩ := hstep
    exact ih.imported hpath ⟨row, hrow, hkind, haccepts _ _ row ih hpath hrow hkind hacc, hedge⟩

theorem pathOf_of_fileOf (h : fileOf s x = some f) : pathOf s x = some f :=
  (Option.filter_eq_some_iff.mp h).1

theorem fileOf_of_pathOf (h : pathOf s x = some f) (hf : f ≠ "") : fileOf s x = some f :=
  Option.filter_eq_some_iff.mpr ⟨h, decide_eq_true hf⟩

theorem not_sharesToken_empty (row : NodeRow) : ¬ SharesToken row "" := by
  rintro ⟨token, htoken, -⟩
  have hnil : (blastRadiusHints "".toList).flatMap importSigTokens = [] := by decide
  rw [hnil] at htoken
  cases htoken

theorem reached_iff {seeds : List NodeId} :
    Reached s seeds x ↔ Affects s Candidate (· ∈ seeds) x := by
  constructor
  · rintro ⟨k, h⟩
    induction h with
    | seed hx => exact .seed hx
    | near _ hstep ih => exact ih.follow hstep
    | far _ hlabel hstep ih => exact ih.imported (pathOf_of_fileOf hlabel) hstep
  · intro h
    induction h with
    | seed hx => exact ⟨[0], .seed hx⟩
    | follow _ hstep ih =>
      obtain ⟨k, hwalk⟩ := ih
      exact ⟨nearKey k, hwalk.near hstep⟩
    | @imported x y f _ hpath hstep ih =>
      obtain ⟨k, hwalk⟩ := ih
      have hf : f ≠ "" := by
        rintro rfl
        obtain ⟨row, -, -, hcand, -⟩ := hstep
        exact not_sharesToken_empty row hcand.1
      exact ⟨0 :: k, hwalk.far (fileOf_of_pathOf hpath hf) hstep⟩

theorem NodeScans.mem_atPath (scans : NodeScans r) :
    x ∈ (scans.atPath path).map NodeRow.id ↔ SeededAt r.store path x := by
  rw [List.mem_map]
  constructor
  · rintro ⟨n, hn, rfl⟩
    have hn := (scans.atPath_perm path).mem_iff.mp hn
    rw [List.mem_filter, decide_eq_true_eq] at hn
    exact ⟨n, hn.1, rfl, hn.2⟩
  · rintro ⟨n, hn, rfl, hkeep⟩
    refine ⟨n, (scans.atPath_perm path).mem_iff.mpr ?_, rfl⟩
    rw [List.mem_filter, decide_eq_true_eq]
    exact ⟨hn, hkeep⟩

theorem NodeScans.reached_iff (scans : NodeScans r) :
    Reached r.store ((scans.atPath path).map NodeRow.id) x ↔
      Affects r.store Candidate (SeededAt r.store path) x := by
  rw [Mcp.reached_iff, show (· ∈ (scans.atPath path).map NodeRow.id) = SeededAt r.store path from
    funext fun x => propext scans.mem_atPath]

/-! ### The answer below the limits -/

/-- Fewer files are reached than the limit, and fewer nodes than the ceiling. -/
structure BelowLimits (s : SqliteStore) (path : String) (maxFiles : Option Nat) : Prop where
  files : Room s (fileLimit maxFiles) (Affects s Candidate (SeededAt s path))
  nodes : ∀ l : List NodeId, l.Nodup → (∀ x ∈ l, Affects s Candidate (SeededAt s path) x) →
    l.length < MAX_BLAST_RADIUS_NODES

section answer

variable {maxFiles : Option Nat} (scans : NodeScans r) (hlow : BelowLimits r.store path maxFiles)

include hlow

theorem affected_spec :
    (affected r scans .treeSitter maxFiles (scans.atPath path)).Nodup ∧
    (affected r scans .treeSitter maxFiles (scans.atPath path)).length ≤ fileCap maxFiles ∧
    ∀ f, f ∈ affected r scans .treeSitter maxFiles (scans.atPath path) ↔
      ∃ x, Affects r.store Candidate (SeededAt r.store path) x ∧ fileOf r.store x = some f := by
  have hrows : ∀ n ∈ scans.atPath path, n ∈ r.store.nodes := fun n hn =>
    (List.mem_filter.mp ((scans.atPath_perm path).mem_iff.mp hn)).1
  have hwalks : Reached r.store ((scans.atPath path).map NodeRow.id) =
      Affects r.store Candidate (SeededAt r.store path) :=
    funext fun x => propext scans.reached_iff
  obtain ⟨hsteady, -, hvisited⟩ := traverse_spec hrows scans.scanned (hwalks ▸ hlow.files)
    (hwalks ▸ hlow.nodes)
  have horder : affected r scans .treeSitter maxFiles (scans.atPath path) =
      filesOf r.store (traverse r scans.imports .treeSitter (fileLimit maxFiles)
        (scans.atPath path)).visited := hsteady.order
  rw [horder]
  generalize (traverse r scans.imports .treeSitter (fileLimit maxFiles)
    (scans.atPath path)).visited = V at *
  have hlen : (filesOf r.store V).length < fileLimit maxFiles :=
    hlow.files.length_filesOf fun x hx => scans.reached_iff.mp ((hvisited x).mp hx)
  refine ⟨nodup_filesOf V, ?_, fun f => ?_⟩
  · unfold fileLimit at hlen
    omega
  · rw [mem_filesOf]
    apply exists_congr
    intro x
    rw [hvisited, scans.reached_iff]

theorem shownFiles_spec :
    (shownFiles r scans .treeSitter maxFiles (scans.atPath path)).2 = false ∧
    (shownFiles r scans .treeSitter maxFiles (scans.atPath path)).1.Nodup ∧
    (shownFiles r scans .treeSitter maxFiles (scans.atPath path)).1.Pairwise (· ≤ ·) ∧
    ∀ f, f ∈ (shownFiles r scans .treeSitter maxFiles (scans.atPath path)).1 ↔
      ∃ x, Affects r.store Candidate (SeededAt r.store path) x ∧ fileOf r.store x = some f := by
  obtain ⟨hnodup, hlen, hmem⟩ := affected_spec scans hlow
  unfold shownFiles
  generalize affected r scans .treeSitter maxFiles (scans.atPath path) = order at *
  dsimp only
  rw [List.take_of_length_le hlen]
  refine ⟨decide_eq_false (Nat.not_lt.mpr hlen), SortDedup.nodup_sortBy hnodup,
    SortDedup.sorted_sortBy order, fun f => ?_⟩
  rw [SortDedup.mem_sortBy, hmem]

end answer

theorem childModules_congr {r' : Reader} (hstore : r'.store = r.store) {seeds seeds' : List NodeRow}
    (hseeds : ∀ n, n ∈ seeds' ↔ n ∈ seeds) :
    childModules r' path seeds' = childModules r path seeds := by
  unfold childModules
  apply SortDedup.dedupBy_sortBy_congr
  intro p
  have hedges : ∀ (q : Reader) (id : NodeId) (e : Edge), e ∈ q.iterEdgesFrom id ↔
      ∃ row, row ∈ q.store.edges ∧ row.src = id ∧ row.toEdge = e := by
    intro q id e
    unfold Reader.iterEdgesFrom
    rw [List.mem_map]
    apply exists_congr
    intro row
    rw [(q.from_perm id).mem_iff, List.mem_filter, decide_eq_true_eq, and_assoc]
    exact Iff.rfl
  have hget : ∀ id, r'.getNode id = r.getNode id := fun id => by
    rw [Reader.getNode, Reader.getNode, hstore]
  simp only [List.mem_filter, List.mem_map, List.mem_filterMap, List.mem_flatMap, hedges, hget,
    hseeds, hstore]

theorem getBlastRadiusRaw_of_stored {scans : NodeScans r} {search : String → List NodeRow}
    {mode : AnalysisMode} {maxFiles : Option Nat} (hne : scans.atPath path ≠ []) :
    getBlastRadiusRaw r scans search path mode maxFiles =
      joinWith "\n" (shownFiles r scans mode maxFiles (scans.atPath path)).1 ++
        (if (shownFiles r scans mode maxFiles (scans.atPath path)).2 then cutNote (fileCap maxFiles)
          else "") ++
        (if childModules r path (scans.atPath path) = [] then ""
          else childrenNote (childModules r path (scans.atPath path))) := by
  unfold getBlastRadiusRaw
  simp only [decide_eq_false hne, Bool.false_eq_true, if_false, if_neg hne, String.append_empty]

/-! ### The listed files and the closure -/

/-- Some node at the file's path is affected. -/
def FileAffected (s : SqliteStore) (path f : String) : Prop :=
  ∃ x, Affects s Resolves (StoredAt s path) x ∧ fileOf s x = some f

/-- The tool lists the files of the closure and nothing else, whatever the order of the rows, and
ends with the note on child modules. -/
def ListsClosure (s : SqliteStore) (path : String) (maxFiles : Option Nat) : Prop :=
  ∃ (files : List String) (note : String), (∀ f, f ∈ files ↔ FileAffected s path f) ∧
    ∀ (r : Reader) (scans : NodeScans r) (search : String → List NodeRow), r.store = s →
      (shownFiles r scans .treeSitter maxFiles (scans.atPath path)).1 = files ∧
      getBlastRadiusRaw r scans search path .treeSitter maxFiles = joinWith "\n" files ++ note

/-- Whatever import the resolver accepts for the path of an affected node is looked at. -/
def PrefilterComplete (s : SqliteStore) (path : String) : Prop :=
  ∀ x f row, Affects s Resolves (StoredAt s path) x → pathOf s x = some f → row ∈ s.nodes →
    row.kind = "import" → Resolves row f → ∀ (r : Reader) (scans : NodeScans r), r.store = s →
      ∃ idx ∈ importCandidates scans.imports f, scans.imports[idx]? = some row

/-- The import's signature shares a token with the name of the directory or the stem of whatever
affected path it resolves to. -/
def TokensShared (s : SqliteStore) (path : String) : Prop :=
  ∀ x f row, Affects s Resolves (StoredAt s path) x → pathOf s x = some f → row ∈ s.nodes →
    row.kind = "import" → Resolves row f → SharesToken row f

/-- No file is affected by way of document chunks alone. -/
def ChunksApart (s : SqliteStore) (path : String) : Prop :=
  ∀ f, FileAffected s path f → ∃ x, Affects s Resolves (SeededAt s path) x ∧ fileOf s x = some f

def NodeScans.inOrder (r : Reader) : NodeScans r where
  imports := r.store.nodes.rows.filter fun n => n.kind = "import"
  atPath := fun path => r.store.nodes.rows.filter fun n => n.vname.path = path ∧ n.kind ≠ "doc-chunk"
  imports_perm := .refl _
  atPath_perm := fun _ => .refl _

theorem prefilterComplete_iff : PrefilterComplete s path ↔ TokensShared s path := by
  constructor
  · intro h x f row hx hf hrow hkind hres
    obtain ⟨idx, hidx, hget⟩ := h x f row hx hf hrow hkind hres (Reader.scan s) (.inOrder _) rfl
    obtain ⟨row', hget', hshare⟩ := mem_importCandidates.mp hidx
    rw [hget] at hget'
    exact Option.some.inj hget' ▸ hshare
  · rintro h x f row hx hf hrow hkind hres r scans rfl
    obtain ⟨idx, hlt, hget⟩ := List.mem_iff_getElem.mp (scans.scanned.complete row hrow hkind)
    have hidx : scans.imports[idx]? = some row := by rw [List.getElem?_eq_getElem hlt, hget]
    exact ⟨idx, mem_importCandidates.mpr ⟨row, hidx, h x f row hx hf hrow hkind hres⟩, hidx⟩

theorem Affects.of_candidate (h : Affects s Candidate (SeededAt s path) x) :
    Affects s Resolves (StoredAt s path) x :=
  h.mono (fun _ hx => hx.storedAt) fun _ _ _ _ _ _ _ hcand => hcand.2

theorem Affects.candidate (hshared : TokensShared s path)
    (h : Affects s Resolves (SeededAt s path) x) : Affects s Candidate (SeededAt s path) x :=
  h.mono (fun _ hx => hx) fun x f row hx hpath hrow hkind hres =>
    ⟨hshared x f row hx.of_candidate hpath hrow hkind hres, hres⟩

theorem ListsClosure.chunksApart {maxFiles : Option Nat} (hlow : BelowLimits s path maxFiles)
    (h : ListsClosure s path maxFiles) : ChunksApart s path := by
  obtain ⟨files, note, hfiles, hall⟩ := h
  obtain ⟨hlist, -⟩ := hall (Reader.scan s) (.inOrder _) (fun _ => []) rfl
  intro f hf
  have hmem := (hfiles f).mpr hf
  rw [← hlist] at hmem
  obtain ⟨x, hx, hxf⟩ := ((shownFiles_spec (NodeScans.inOrder (Reader.scan s)) hlow).2.2.2 f).mp hmem
  exact ⟨x, hx.mono (fun _ hx => hx) fun _ _ _ _ _ _ _ hcand => hcand.2, hxf⟩

theorem listsClosure_of {maxFiles : Option Nat} (hstored : ∃ x, SeededAt s path x)
    (hlow : BelowLimits s path maxFiles) (hshared : TokensShared s path)
    (hapart : ChunksApart s path) : ListsClosure s path maxFiles := by
  have hlow' : ∀ r : Reader, r.store = s → BelowLimits r.store path maxFiles := fun r hr => hr ▸ hlow
  have hspec := fun (r : Reader) (scans : NodeScans r) (hr : r.store = s) =>
    shownFiles_spec scans (hlow' r hr)
  have hmem : ∀ (r : Reader) (scans : NodeScans r), r.store = s → ∀ f,
      f ∈ (shownFiles r scans .treeSitter maxFiles (scans.atPath path)).1 ↔ FileAffected s path f := by
    rintro r scans rfl f
    rw [(hspec r scans rfl).2.2.2]
    constructor
    · rintro ⟨x, hx, hxf⟩
      exact ⟨x, hx.of_candidate, hxf⟩
    · intro hf
      obtain ⟨x, hx, hxf⟩ := hapart f hf
      exact ⟨x, hx.candidate hshared, hxf⟩
  let children := childModules (Reader.scan s) path ((NodeScans.inOrder (Reader.scan s)).atPath path)
  refine ⟨(shownFiles (Reader.scan s) (.inOrder _) .treeSitter maxFiles
    ((NodeScans.inOrder (Reader.scan s)).atPath path)).1,
    if children = [] then "" else childrenNote children, hmem _ _ rfl, ?_⟩
  rintro r scans search rfl
  have hlist : (shownFiles r scans .treeSitter maxFiles (scans.atPath path)).1 =
      (shownFiles (Reader.scan r.store) (.inOrder _) .treeSitter maxFiles
        ((NodeScans.inOrder (Reader.scan r.store)).atPath path)).1 := by
    obtain ⟨-, hn, hs, -⟩ := hspec r scans rfl
    obtain ⟨-, hn', hs', -⟩ := hspec (Reader.scan r.store) (.inOrder _) rfl
    exact SortDedup.eq_of_mem_iff hs hs' hn hn' fun f => (hmem r scans rfl f).trans
      (hmem (Reader.scan r.store) (.inOrder _) rfl f).symm
  have hstore : r.store = (Reader.scan r.store).store := rfl
  have hchildren : childModules r path (scans.atPath path) = children :=
    childModules_congr hstore fun n => (scans.atPath_perm path).mem_iff
  have hne : scans.atPath path ≠ [] := by
    obtain ⟨x, hx⟩ := hstored
    have hx := scans.mem_atPath.mpr hx
    intro hnil
    rw [hnil] at hx
    cases hx
  refine ⟨hlist, ?_⟩
  rw [getBlastRadiusRaw_of_stored hne, hchildren, (hspec r scans rfl).1, hlist,
    if_neg Bool.false_ne_true, String.append_empty]

/-- Below the limits the tool lists the closure, through a prefilter that loses nothing, exactly if
whatever import resolves to an affected path shares a token with it. -/
theorem listsClosure_iff (s : SqliteStore) (path : String) (maxFiles : Option Nat)
    (hstored : ∃ x, SeededAt s path x) (hlow : BelowLimits s path maxFiles) :
    (ListsClosure s path maxFiles ∧ PrefilterComplete s path) ↔
      (TokensShared s path ∧ ChunksApart s path) := by
  rw [prefilterComplete_iff]
  constructor
  · rintro ⟨hlists, hshared⟩
    exact ⟨hshared, hlists.chunksApart hlow⟩
  · rintro ⟨hshared, hapart⟩
    exact ⟨listsClosure_of hstored hlow hshared hapart, hshared⟩

theorem belowLimits_of_subset {maxFiles : Option Nat} {V : List NodeId}
    (hV : ∀ x, Affects s Candidate (SeededAt s path) x → x ∈ V)
    (hlen : V.length < fileLimit maxFiles) : BelowLimits s path maxFiles := by
  constructor
  · intro l hl hall
    have hsub : l ⊆ V.filterMap (fileOf s) := fun f hf => by
      obtain ⟨x, hx, hxf⟩ := hall f hf
      exact List.mem_filterMap.mpr ⟨x, hV x hx, hxf⟩
    have h1 := (List.subperm_of_subset hl hsub).length_le
    have h2 := List.length_filterMap_le (fileOf s) V
    omega
  · intro l hl hall
    have h1 := (List.subperm_of_subset hl fun x hx => hV x (hall x hx)).length_le
    have h2 : fileLimit maxFiles ≤ MAX_BLAST_RADIUS_NODES := Nat.min_le_right _ _
    omega

/-- `main.go` imports the package in the directory. -/
def packageStore (dir : String) : SqliteStore where
  __ := SqliteStore.empty
  nodes := ⟨⟨[⟨1, ⟨"a", "", dir ++ "/x.go", "go", "fn:X"⟩, "function", "", none, none, false, .none,
      none⟩,
    ⟨2, ⟨"a", "", "main.go", "go", "import:example.com/" ++ dir⟩, "import", "", none, none, false,
      .none, none⟩,
    ⟨3, ⟨"a", "", "main.go", "go", "file"⟩, "file", "", none, none, false, .none, none⟩],
    by simp⟩, by simp [← String.toList_inj]⟩
  edges := ⟨[⟨3, 2, .depends, "tree-sitter", none⟩], by simp⟩

theorem follows_packageStore {dir : String} {x y : NodeId} (h : Follows (packageStore dir) x y) :
    x = 2 := by
  obtain ⟨e, he, rfl, -, -⟩ := h
  have he : e ∈ [(⟨3, 2, .depends, "tree-sitter", none⟩ : EdgeRow)] := he
  rw [List.mem_singleton.mp he]

theorem importedBy_packageStore {dir : String} {accepts : NodeRow → String → Prop} {f : String}
    {y : NodeId} (h : ImportedBy (packageStore dir) accepts f y) : y = 3 := by
  obtain ⟨-, -, -, -, e, he, -, rfl, -⟩ := h
  have he : e ∈ [(⟨3, 2, .depends, "tree-sitter", none⟩ : EdgeRow)] := he
  rw [List.mem_singleton.mp he]

theorem seededAt_packageStore {dir path : String} {x : NodeId} (hmain : path ≠ "main.go")
    (h : SeededAt (packageStore dir) path x) : x = 1 := by
  obtain ⟨n, hn, rfl, rfl, -⟩ := h
  have hn : n ∈ (packageStore dir).nodes.rows := hn
  simp only [packageStore, List.mem_cons, List.not_mem_nil, or_false] at hn
  rcases hn with rfl | rfl | rfl
  · rfl
  · exact absurd rfl hmain
  · exact absurd rfl hmain

theorem belowLimits_packageStore {dir path : String} (hmain : path ≠ "main.go") :
    BelowLimits (packageStore dir) path none := by
  refine belowLimits_of_subset (V := [1, 3]) (fun x hx => ?_) (by decide)
  have hcases : x = 1 ∨ x = 3 := by
    induction hx with
    | seed hx => exact .inl (seededAt_packageStore hmain hx)
    | follow _ hstep ih =>
      rw [follows_packageStore hstep] at ih
      exact absurd ih (by decide)
    | imported _ _ hstep _ => exact .inr (importedBy_packageStore hstep)
  simpa using hcases

/-- A directory whose name has no ASCII letter: the file that imports its package is affected and is
not listed, since the import is not even looked at. -/
theorem unspelled_directory_lost :
    (∃ x, SeededAt (packageStore "данные") "данные/x.go" x) ∧
      BelowLimits (packageStore "данные") "данные/x.go" none ∧
      ¬ (ListsClosure (packageStore "данные") "данные/x.go" none ∧
        PrefilterComplete (packageStore "данные") "данные/x.go") := by
  have hseed : SeededAt (packageStore "данные") "данные/x.go" 1 :=
    ⟨_, List.mem_cons_self, rfl, by decide, by decide⟩
  refine ⟨⟨1, hseed⟩, belowLimits_packageStore (by decide), ?_⟩
  rintro ⟨⟨files, note, hfiles, hall⟩, -⟩
  have hmain : FileAffected (packageStore "данные") "данные/x.go" "main.go" := by
    refine ⟨3, .imported (.seed hseed.storedAt) (f := "данные/x.go") (by decide) ?_, by decide⟩
    exact ⟨_, List.mem_cons_of_mem _ List.mem_cons_self, rfl, by unfold Resolves; decide,
      _, List.mem_cons_self, rfl, rfl, rfl⟩
  obtain ⟨hlist, -⟩ := hall (Reader.scan _) (.inOrder _) (fun _ => []) rfl
  have hmem := hlist ▸ (hfiles "main.go").mpr hmain
  obtain ⟨x, hx, hxf⟩ := ((shownFiles_spec (NodeScans.inOrder (Reader.scan _))
    (belowLimits_packageStore (by decide))).2.2.2 _).mp hmem
  have hone : x = 1 := by
    clear hxf
    induction hx with
    | seed hx => exact seededAt_packageStore (by decide) hx
    | follow _ hstep ih =>
      rw [follows_packageStore hstep] at ih
      exact absurd ih (by decide)
    | @imported x y f _ hpath hstep ih =>
      obtain ⟨row, hrow, hkind, ⟨hshare, -⟩, -⟩ := hstep
      have hf : f = "данные/x.go" := by
        rw [ih] at hpath
        exact (Option.some.inj hpath).symm
      have hrow : row ∈ (packageStore "данные").nodes.rows := hrow
      simp only [packageStore, List.mem_cons, List.not_mem_nil, or_false] at hrow
      rcases hrow with rfl | rfl | rfl
      · exact absurd hkind (by decide)
      · rw [hf] at hshare
        exact absurd hshare (by unfold SharesToken; decide)
      · exact absurd hkind (by decide)
  rw [hone] at hxf
  exact absurd hxf (by decide)

theorem listsClosure_package :
    (ListsClosure (packageStore "data") "data/x.go" none ∧
        PrefilterComplete (packageStore "data") "data/x.go") ↔
      (TokensShared (packageStore "data") "data/x.go" ∧
        ChunksApart (packageStore "data") "data/x.go") :=
  listsClosure_iff (packageStore "data") "data/x.go" none
    ⟨1, _, List.mem_cons_self, rfl, by decide, by decide⟩ (belowLimits_packageStore (by decide))

end Travsr.Mcp
