import Travsr.Mcp.BlastClosure

namespace Travsr.Mcp

open Travsr.Core Travsr.Core.Text Travsr.Store Alternation SortedCut

variable {r : Reader} {imports : List NodeRow} {st full : Radius} {L M : Nat}

/-! ### A traversal that a limit stops -/

theorem reachPath_grows (limit : Nat) (path : String) (st : Radius) :
    st.affectedOrder <+: (reachPath limit path st).affectedOrder := by
  unfold reachPath
  split_ifs
  · exact List.prefix_rfl
  · exact List.prefix_append _ _

theorem reachNode_grows (limit : Nat) (st : Radius) (id : NodeId) :
    st.affectedOrder <+: (reachNode r limit st id).affectedOrder := by
  unfold reachNode
  split_ifs
  · exact List.prefix_rfl
  · split
    · exact reachPath_grows limit _ st
    · exact List.prefix_rfl

theorem foldl_grows {β : Type} {op : Radius → β → Radius}
    (hop : ∀ st b, st.affectedOrder <+: (op st b).affectedOrder) (l : List β) (st : Radius) :
    st.affectedOrder <+: (l.foldl op st).affectedOrder := by
  induction l generalizing st with
  | nil => exact List.prefix_rfl
  | cons b l ih => exact (hop st b).trans (ih (op st b))

theorem visit_order (id : NodeId) (st : Radius) : (visit id st).affectedOrder = st.affectedOrder := by
  unfold visit
  split_ifs <;> rfl

theorem reachImporter_grows (limit : Nat) (st : Radius) (id : NodeId) :
    st.affectedOrder <+: (reachImporter r limit st id).affectedOrder := by
  unfold reachImporter
  split_ifs
  · exact List.prefix_rfl
  · have h := reachNode_grows (r := r) limit (visit id st) id
    rwa [visit_order] at h

theorem checkImport_grows (limit : Nat) (file : String) (st : Radius) (idx : Nat) :
    st.affectedOrder <+: (checkImport r imports limit file st idx).affectedOrder := by
  unfold checkImport
  split_ifs
  · exact List.prefix_rfl
  · split
    · split_ifs
      · exact foldl_grows (reachImporter_grows limit) _
          { st with resolvedImports := idx :: st.resolvedImports }
      · exact List.prefix_rfl
    · exact List.prefix_rfl

theorem resolveFile_grows (limit : Nat) (st : Radius) (file : String) :
    st.affectedOrder <+: (resolveFile r imports limit st file).affectedOrder := by
  unfold resolveFile
  split_ifs
  · exact List.prefix_rfl
  · exact foldl_grows (checkImport_grows limit file) _
      { st with phase2Done := file :: st.phase2Done }

theorem radiusStep_grows {limit : Nat} {st' : Radius}
    (h : radiusStep r imports .treeSitter limit st = some st') :
    st.affectedOrder <+: st'.affectedOrder := by
  rcases radiusStep_cases h with ⟨current, rest, -, rfl⟩ | ⟨-, -, rfl⟩
  · unfold followEdges
    dsimp only
    generalize newSrcs st.visited _ = fresh
    exact foldl_grows (reachNode_grows limit) fresh
      { st with visited := st.visited ++ fresh, queue := rest ++ fresh }
  · exact foldl_grows (resolveFile_grows limit) _ _

/-- A run under a limit is the run under a larger one until it stops, with as many files. -/
def CutAt (L : Nat) (st full : Radius) : Prop :=
  (st = full ∧ st.halted = false ∧ st.affectedOrder.length < L) ∨
    (st.halted = true ∧ st.affectedOrder.length = L ∧ st.affectedOrder <+: full.affectedOrder)

/-- What does nothing once the run is stopped, and else the same until it stops, keeps the
relation. -/
theorem cutAt_of_op {β : Type} {op op' : Radius → β → Radius}
    (hstop : ∀ st b, st.halted = true → op st b = st)
    (hgrows : ∀ st b, st.affectedOrder <+: (op' st b).affectedOrder)
    (hsame : ∀ st b, st.halted = false → st.affectedOrder.length < L →
      CutAt L (op st b) (op' st b)) {b : β} (h : CutAt L st full) :
    CutAt L (op st b) (op' full b) := by
  rcases h with ⟨rfl, hhalted, hlen⟩ | ⟨hhalted, hlen, hpre⟩
  · exact hsame st b hhalted hlen
  · rw [hstop st b hhalted]
    exact .inr ⟨hhalted, hlen, hpre.trans (hgrows full b)⟩

theorem foldl_cutAt {β : Type} {op op' : Radius → β → Radius}
    (hop : ∀ st full b, CutAt L st full → CutAt L (op st b) (op' full b)) (l : List β)
    (h : CutAt L st full) : CutAt L (l.foldl op st) (l.foldl op' full) := by
  induction l generalizing st full with
  | nil => exact h
  | cons b l ih => exact ih (hop st full b h)

section limits

variable (hLM : L ≤ M)

include hLM

theorem reachPath_cutAt (path : String) (hhalted : st.halted = false)
    (hlen : st.affectedOrder.length < L) : CutAt L (reachPath L path st) (reachPath M path st) := by
  unfold reachPath
  by_cases hskip : path = "" ∨ path ∈ st.affectedOrder
  · rw [if_pos hskip, if_pos hskip]
    exact .inl ⟨rfl, hhalted, hlen⟩
  · rw [if_neg hskip, if_neg hskip]
    rcases Nat.lt_or_eq_of_le (Nat.succ_le_of_lt hlen) with h | h
    · left
      rw [decide_eq_false (Nat.not_le.mpr h), decide_eq_false (Nat.not_le.mpr (h.trans_le hLM))]
      refine ⟨rfl, rfl, ?_⟩
      rw [List.length_append, List.length_singleton]
      exact h
    · right
      refine ⟨decide_eq_true h.ge, ?_, List.prefix_rfl⟩
      rw [List.length_append, List.length_singleton]
      exact h

theorem reachNode_cutAt (id : NodeId) (h : CutAt L st full) :
    CutAt L (reachNode r L st id) (reachNode r M full id) := by
  refine cutAt_of_op (fun st b hst => ?_) (reachNode_grows M) (fun st b hst hlen => ?_) h
  · rw [reachNode, if_pos hst]
  · unfold reachNode
    rw [if_neg (by simp [hst]), if_neg (by simp [hst])]
    split
    · exact reachPath_cutAt hLM _ hst hlen
    · exact .inl ⟨rfl, hst, hlen⟩

theorem reachImporter_cutAt (id : NodeId) (h : CutAt L st full) :
    CutAt L (reachImporter r L st id) (reachImporter r M full id) := by
  refine cutAt_of_op (fun st b hst => ?_) (reachImporter_grows M) (fun st b hst hlen => ?_) h
  · rw [reachImporter, if_pos hst]
  · unfold reachImporter
    rw [if_neg (by simp [hst]), if_neg (by simp [hst])]
    refine reachNode_cutAt hLM b (.inl ⟨rfl, ?_, ?_⟩)
    · unfold visit
      split_ifs <;> exact hst
    · rw [visit_order]
      exact hlen

theorem checkImport_cutAt (file : String) (idx : Nat) (h : CutAt L st full) :
    CutAt L (checkImport r imports L file st idx) (checkImport r imports M file full idx) := by
  refine cutAt_of_op (fun st b hst => ?_) (checkImport_grows M file) (fun st b hst hlen => ?_) h
  · rw [checkImport, if_pos (.inl hst)]
  · unfold checkImport
    have hhere : CutAt L st st := .inl ⟨rfl, hst, hlen⟩
    by_cases hskip : st.halted ∨ b ∈ st.resolvedImports
    · rw [if_pos hskip, if_pos hskip]
      exact hhere
    · rw [if_neg hskip, if_neg hskip]
      split
      · split_ifs
        · exact foldl_cutAt (fun st full id h => reachImporter_cutAt hLM id h) _
            (.inl ⟨rfl, hst, hlen⟩)
        · exact hhere
      · exact hhere

theorem resolveFile_cutAt (file : String) (h : CutAt L st full) :
    CutAt L (resolveFile r imports L st file) (resolveFile r imports M full file) := by
  refine cutAt_of_op (fun st b hst => ?_) (resolveFile_grows M) (fun st b hst hlen => ?_) h
  · rw [resolveFile, if_pos hst]
  · unfold resolveFile
    rw [if_neg (by simp [hst]), if_neg (by simp [hst])]
    exact foldl_cutAt (fun st full idx h => checkImport_cutAt hLM b idx h) _ (.inl ⟨rfl, hst, hlen⟩)

theorem radiusStep_cutAt (hhalted : st.halted = false) (hlen : st.affectedOrder.length < L) :
    Option.Rel (CutAt L) (radiusStep r imports .treeSitter L st)
      (radiusStep r imports .treeSitter M st) := by
  have hhere : CutAt L st st := .inl ⟨rfl, hhalted, hlen⟩
  unfold radiusStep
  by_cases hceil : st.halted ∨ MAX_BLAST_RADIUS_NODES ≤ st.visited.length
  · rw [if_pos hceil, if_pos hceil]
    exact .none
  · rw [if_neg hceil, if_neg hceil]
    split
    · exact .some (foldl_cutAt (fun st full id h => reachNode_cutAt hLM id h) _
        (.inl ⟨rfl, hhalted, hlen⟩))
    · split_ifs
      · exact .none
      · exact .some (foldl_cutAt (fun st full file h => resolveFile_cutAt hLM file h) _ hhere)

theorem iterate_cutAt (fuel : Nat) (h : CutAt L st full) :
    CutAt L (Loop.iterate (radiusStep r imports .treeSitter L) fuel st)
      (Loop.iterate (radiusStep r imports .treeSitter M) fuel full) := by
  induction fuel generalizing st full with
  | zero => exact h
  | succ n ih =>
    rcases h with ⟨rfl, hhalted, hlen⟩ | ⟨hhalted, hlen, hpre⟩
    · have hrel : Option.Rel (CutAt L) (radiusStep r imports .treeSitter L st)
          (radiusStep r imports .treeSitter M st) := radiusStep_cutAt hLM hhalted hlen
      unfold Loop.iterate
      generalize radiusStep r imports .treeSitter L st = a at hrel
      generalize radiusStep r imports .treeSitter M st = b at hrel
      cases hrel with
      | none => exact .inl ⟨rfl, hhalted, hlen⟩
      | some hcut => exact ih hcut
    · have hnone : radiusStep r imports .treeSitter L st = none := by
        rw [radiusStep, if_pos (.inl hhalted)]
      rw [Loop.iterate_of_none hnone]
      have hfull : full.affectedOrder <+:
          (Loop.iterate (radiusStep r imports .treeSitter M) (n + 1) full).affectedOrder :=
        Loop.iterate_invariant (P := fun st => full.affectedOrder <+: st.affectedOrder)
          (fun st st' h hstep => h.trans (radiusStep_grows hstep)) (n + 1) full List.prefix_rfl
      exact .inr ⟨hhalted, hlen, hpre.trans hfull⟩

end limits

/-! ### The order without a cap -/

variable {s : SqliteStore} {path : String} {maxFiles : Option Nat}

/-- The ceiling is not reached around the file. -/
def BelowCeiling (s : SqliteStore) (path : String) : Prop :=
  ∀ l : List NodeId, l.Nodup → (∀ x ∈ l, Affects s Candidate (SeededAt s path) x) →
    l.length < MAX_BLAST_RADIUS_NODES

/-- The traversal reaches a node of the file. -/
def FileReached (s : SqliteStore) (path f : String) : Prop :=
  ∃ x, Affects s Candidate (SeededAt s path) x ∧ fileOf s x = some f

def seedIds (s : SqliteStore) (path : String) : List NodeId :=
  (s.nodes.rows.filter fun n => n.vname.path = path ∧ n.kind ≠ "doc-chunk").map NodeRow.id

/-- No walk to the second file has fewer import steps than the best one to the first; nor, with as
many, fewer edges after the last of them, between the last two, and so on. -/
def NoFurther (s : SqliteStore) (path f g : String) : Prop :=
  NoLater (Follows s) (fileOf s) (ImportedBy s Candidate) (seedIds s path) f g

theorem BelowCeiling.room (h : BelowCeiling s path) :
    Room s MAX_BLAST_RADIUS_NODES (Affects s Candidate (SeededAt s path)) := by
  intro l hl hfiles
  choose! node hnode hfile using hfiles
  have hinj : (l.map node).Nodup := by
    refine hl.map_on fun f hf g hg hfg => ?_
    have h1 := hfile f hf
    rw [hfg, hfile g hg] at h1
    exact (Option.some.inj h1).symm
  have hlen := h (l.map node) hinj fun x hx => by
    obtain ⟨f, hf, rfl⟩ := List.mem_map.mp hx
    exact hnode f hf
  rwa [List.length_map] at hlen

def reachOrder (r : Reader) (scans : NodeScans r) (path : String) : List String :=
  (traverse r scans.imports .treeSitter MAX_BLAST_RADIUS_NODES (scans.atPath path)).affectedOrder

theorem reachOrder_spec (scans : NodeScans r) (hceil : BelowCeiling r.store path) :
    (reachOrder r scans path).Nodup ∧
      (∀ f, f ∈ reachOrder r scans path ↔ FileReached r.store path f) ∧
      (reachOrder r scans path).Pairwise (NoFurther r.store path) := by
  have hrows : ∀ n ∈ scans.atPath path, n ∈ r.store.nodes := fun n hn =>
    (List.mem_filter.mp ((scans.atPath_perm path).mem_iff.mp hn)).1
  have hwalks : Reached r.store ((scans.atPath path).map NodeRow.id) =
      Affects r.store Candidate (SeededAt r.store path) :=
    funext fun x => propext scans.reached_iff
  obtain ⟨hsteady, -, hvisited⟩ := traverse_spec hrows scans.scanned (hwalks ▸ hceil.room)
    (hwalks ▸ hceil)
  have hseeds : ∀ x, x ∈ (scans.atPath path).map NodeRow.id ↔ x ∈ seedIds r.store path :=
    fun x => scans.mem_atPath.trans (NodeScans.inOrder r).mem_atPath.symm
  have horder : reachOrder r scans path = filesOf r.store (traverse r scans.imports .treeSitter
      MAX_BLAST_RADIUS_NODES (scans.atPath path)).visited := hsteady.order
  obtain ⟨i, hkept⟩ := hsteady.kept
  rw [horder]
  refine ⟨nodup_filesOf _, fun f => ?_, ?_⟩
  · rw [mem_filesOf]
    apply exists_congr
    intro x
    rw [hvisited, scans.reached_iff]
  · refine (pairwise_filesOf _).imp fun hfg => ?_
    exact (hkept.noLater (fun k y hy => (hvisited y).mpr ⟨k, hy⟩) hfg).of_seeds hseeds

theorem fileCap_pos (maxFiles : Option Nat) : 0 < fileCap maxFiles := by
  unfold fileCap
  cases h : maxFiles.filter fun n => 0 < n with
  | none => exact Nat.succ_pos _
  | some n => simpa using (Option.filter_eq_some_iff.mp h).2

theorem length_order_start_le (scans : NodeScans r) (path : String) :
    (Radius.start (scans.atPath path)).affectedOrder.length ≤ 1 := by
  have hrows : ∀ n ∈ scans.atPath path, n ∈ r.store.nodes ∧ n.vname.path = path := fun n hn => by
    have hn := (scans.atPath_perm path).mem_iff.mp hn
    rw [List.mem_filter, decide_eq_true_eq] at hn
    exact ⟨hn.1, hn.2.1⟩
  have hstart := seeded_start fun n hn => (hrows n hn).1
  rw [hstart.order]
  have hsub : filesOf r.store (Radius.start (scans.atPath path)).visited ⊆ [path] := by
    intro f hf
    obtain ⟨x, hx, hxf⟩ := mem_filesOf.mp hf
    obtain ⟨n, hn, rfl⟩ := List.mem_map.mp ((hstart.mem x).mp hx)
    rw [fileOf_row (hrows n hn).1] at hxf
    split_ifs at hxf
    rw [← Option.some.inj hxf, (hrows n hn).2]
    exact List.mem_singleton_self path
  exact (List.subperm_of_subset (nodup_filesOf _) hsub).length_le

theorem affected_take (scans : NodeScans r) (hceil : BelowCeiling r.store path) :
    (affected r scans .treeSitter maxFiles (scans.atPath path)).take (fileCap maxFiles) =
        (reachOrder r scans path).take (fileCap maxFiles) ∧
      (fileCap maxFiles < (affected r scans .treeSitter maxFiles (scans.atPath path)).length ↔
        fileCap maxFiles < (reachOrder r scans path).length) := by
  have hcap := fileCap_pos maxFiles
  have hle : fileLimit maxFiles ≤ MAX_BLAST_RADIUS_NODES := Nat.min_le_right _ _
  have hshort : (reachOrder r scans path).length < MAX_BLAST_RADIUS_NODES := by
    obtain ⟨hnodup, hmem, -⟩ := reachOrder_spec scans hceil
    exact hceil.room _ hnodup fun f hf => (hmem f).mp hf
  have hstart : CutAt (fileLimit maxFiles) (Radius.start (scans.atPath path))
      (Radius.start (scans.atPath path)) := by
    have hlen := length_order_start_le scans path
    have hrows : ∀ n ∈ scans.atPath path, n ∈ r.store.nodes := fun n hn =>
      (List.mem_filter.mp ((scans.atPath_perm path).mem_iff.mp hn)).1
    refine .inl ⟨rfl, (seeded_start hrows).halted, ?_⟩
    have hmin : 2 ≤ fileLimit maxFiles := Nat.le_min.mpr ⟨by omega, by decide⟩
    omega
  rcases iterate_cutAt hle (radiusFuel r (scans.atPath path)) hstart with ⟨heq, -, -⟩ | ⟨-, hlen, hpre⟩
  · have heq : affected r scans .treeSitter maxFiles (scans.atPath path) =
        reachOrder r scans path := congrArg Radius.affectedOrder heq
    rw [heq]
    exact ⟨rfl, Iff.rfl⟩
  · have hlen : (affected r scans .treeSitter maxFiles (scans.atPath path)).length =
        fileLimit maxFiles := hlen
    have hpre : affected r scans .treeSitter maxFiles (scans.atPath path) <+:
        reachOrder r scans path := hpre
    obtain ⟨rest, hrest⟩ := hpre
    have hlen' := congrArg List.length hrest
    rw [List.length_append, hlen] at hlen'
    have hlimit : fileLimit maxFiles = fileCap maxFiles + 1 := by
      unfold fileLimit at *
      omega
    rw [← hrest]
    refine ⟨(List.take_append_of_le_length (by omega)).symm, ?_⟩
    rw [List.length_append, hlen]
    omega

/-! ### Distances and the files that are kept -/

/-- So many steps lead to the node: followed edges, or from a reached file to an importer. -/
inductive Steps (s : SqliteStore) (path : String) : Nat → NodeId → Prop where
  | start {x : NodeId} : SeededAt s path x → Steps s path 0 x
  | edge {n : Nat} {x y : NodeId} : Steps s path n x → Follows s x y → Steps s path (n + 1) y
  | importer {n : Nat} {x y : NodeId} {f : String} : Steps s path n x → fileOf s x = some f →
      ImportedBy s Candidate f y → Steps s path (n + 1) y

def StepsToFile (s : SqliteStore) (path : String) (n : Nat) (f : String) : Prop :=
  ∃ x, Steps s path n x ∧ fileOf s x = some f

/-- The first file's distance is the smaller one. -/
def Nearer (s : SqliteStore) (path f g : String) : Prop :=
  ∃ n, StepsToFile s path n f ∧ ∀ m, StepsToFile s path m g → n < m

/-- The answer under a cap: larger caps show no less, the note tells whether files are left out, and
none of these is nearer than one that is shown. -/
structure KeepsNearest (scans : NodeScans r) (path : String) (maxFiles : Option Nat) : Prop where
  text : ∀ search, ∃ children, getBlastRadiusRaw r scans search path .treeSitter maxFiles =
    joinWith "\n" (shownFiles r scans .treeSitter maxFiles (scans.atPath path)).1 ++
      (if (shownFiles r scans .treeSitter maxFiles (scans.atPath path)).2 then
        cutNote (fileCap maxFiles) else "") ++ children
  grows : ∀ maxFiles', fileCap maxFiles ≤ fileCap maxFiles' →
    ∀ f ∈ (shownFiles r scans .treeSitter maxFiles (scans.atPath path)).1,
      f ∈ (shownFiles r scans .treeSitter maxFiles' (scans.atPath path)).1
  note : (shownFiles r scans .treeSitter maxFiles (scans.atPath path)).2 = true ↔
    AtLeast (fileCap maxFiles + 1) (FileReached r.store path)
  nearest : ∀ f g, FileReached r.store path f →
    f ∉ (shownFiles r scans .treeSitter maxFiles (scans.atPath path)).1 →
    g ∈ (shownFiles r scans .treeSitter maxFiles (scans.atPath path)).1 →
    ¬ Nearer r.store path f g

/-- Of two files the nearer one is also the earlier one, or the cap has both on one side: there is
room for all that come no later than it, or what comes before the other fills the room. -/
def OrderedAtCap (s : SqliteStore) (path : String) (cap : Nat) : Prop :=
  ∀ f g, FileReached s path f → FileReached s path g → Nearer s path f g →
    ¬ NoFurther s path g f ∨ AtMost cap (fun h => FileReached s path h ∧ NoFurther s path h f) ∨
      AtLeast cap (fun h => FileReached s path h ∧ ¬ NoFurther s path g h)

/-- No two files come at one place of the order. -/
def NoTies (s : SqliteStore) (path : String) : Prop :=
  ∀ f g, FileReached s path f → FileReached s path g → NoFurther s path f g →
    NoFurther s path g f → f = g

section cap

variable (scans : NodeScans r) (hceil : BelowCeiling r.store path)

include hceil

theorem mem_shownFiles {f : String} :
    f ∈ (shownFiles r scans .treeSitter maxFiles (scans.atPath path)).1 ↔
      f ∈ (reachOrder r scans path).take (fileCap maxFiles) := by
  unfold shownFiles
  dsimp only
  rw [SortDedup.mem_sortBy, (affected_take scans hceil).1]

theorem shownFiles_grows {maxFiles' : Option Nat} (hcap : fileCap maxFiles ≤ fileCap maxFiles')
    {f : String} (hf : f ∈ (shownFiles r scans .treeSitter maxFiles (scans.atPath path)).1) :
    f ∈ (shownFiles r scans .treeSitter maxFiles' (scans.atPath path)).1 := by
  rw [mem_shownFiles scans hceil] at hf ⊢
  exact (List.take_prefix_take_left hcap).subset hf

theorem shownFiles_cut :
    (shownFiles r scans .treeSitter maxFiles (scans.atPath path)).2 = true ↔
      AtLeast (fileCap maxFiles + 1) (FileReached r.store path) := by
  obtain ⟨hnodup, hmem, -⟩ := reachOrder_spec scans hceil
  unfold shownFiles
  dsimp only
  rw [decide_eq_true_eq, (affected_take scans hceil).2]
  constructor
  · exact fun h => ⟨_, hnodup, fun f hf => (hmem f).mp hf, h⟩
  · rintro ⟨l, hl, hall, hlen⟩
    have hle := (List.subperm_of_subset hl fun f hf => (hmem f).mpr (hall f hf)).length_le
    omega

end cap

theorem noFurther_refl (f : String) : NoFurther s path f f := NoLater.refl f

/-- Below the ceiling a capped answer keeps the nearest files if the order of the traversal and the
distances agree at the cap; and where no two files tie in that order, only then. -/
theorem keepsNearest_of_orderedAtCap (scans : NodeScans r) (path : String) (maxFiles : Option Nat)
    (hstored : ∃ x, SeededAt r.store path x) (hceil : BelowCeiling r.store path) :
    (OrderedAtCap r.store path (fileCap maxFiles) → KeepsNearest scans path maxFiles) ∧
      (NoTies r.store path →
        (KeepsNearest scans path maxFiles ↔ OrderedAtCap r.store path (fileCap maxFiles))) := by
  obtain ⟨hnodup, hmem, hsorted⟩ := reachOrder_spec scans hceil
  have hrefl : ∀ f ∈ reachOrder r scans path, NoFurther r.store path f f :=
    fun f _ => noFurther_refl f
  have hne : scans.atPath path ≠ [] := by
    obtain ⟨x, hx⟩ := hstored
    have hx := scans.mem_atPath.mpr hx
    intro hnil
    rw [hnil] at hx
    cases hx
  have henough : OrderedAtCap r.store path (fileCap maxFiles) → KeepsNearest scans path maxFiles := by
    intro hordered
    refine ⟨fun search => ⟨_, getBlastRadiusRaw_of_stored hne⟩,
      fun maxFiles' hcap f hf => shownFiles_grows scans hceil hcap hf, shownFiles_cut scans hceil, ?_⟩
    intro f g hf hfout hg hnear
    rw [mem_shownFiles scans hceil] at hfout hg
    have hgreached := (hmem g).mp (List.mem_of_mem_take hg)
    rw [← hmem] at hf
    rcases hordered f g ((hmem f).mp hf) hgreached hnear with hlater | hroom | hfull
    · exact hlater (related_of_cut hsorted hf hfout hg)
    · simp only [← hmem] at hroom
      exact hfout (mem_take_of_atMost hsorted hnodup hrefl hf hroom)
    · simp only [← hmem] at hfull
      exact not_mem_take_of_atLeast hsorted hnodup hrefl ((hmem g).mpr hgreached) hfull hg
  refine ⟨henough, fun hties => ⟨fun hkeeps f g hf hg hnear => ?_, henough⟩⟩
  have hanti : ∀ f ∈ reachOrder r scans path, ∀ g ∈ reachOrder r scans path,
      NoFurther r.store path f g → NoFurther r.store path g f → f = g :=
    fun f hf g hg => hties f g ((hmem f).mp hf) ((hmem g).mp hg)
  right
  simp only [← hmem] at hf hg ⊢
  by_cases hfin : f ∈ (reachOrder r scans path).take (fileCap maxFiles)
  · exact .inl (atMost_of_mem_take hsorted hnodup hrefl hanti hfin)
  · right
    refine atLeast_of_not_mem_take hsorted hnodup hrefl hanti hg fun hgin => ?_
    rw [← mem_shownFiles scans hceil] at hfin hgin
    exact hkeeps.nearest f g ((hmem f).mp hf) hfin hgin hnear

theorem belowCeiling_of_subset {V : List NodeId}
    (hV : ∀ x, Affects s Candidate (SeededAt s path) x → x ∈ V)
    (hlen : V.length < MAX_BLAST_RADIUS_NODES) : BelowCeiling s path := by
  intro l hl hall
  have hle := (List.subperm_of_subset hl fun x hx => hV x (hall x hx)).length_le
  omega

/-- `b.go` calls what `lib/a.go` defines, `c.go` calls what `b.go` defines, and `main.go` imports
the package in `lib`. -/
def callsAndImport : SqliteStore where
  __ := SqliteStore.empty
  nodes := ⟨⟨[⟨1, ⟨"a", "", "lib/a.go", "go", "fn:A"⟩, "function", "", none, none, false, .none, none⟩,
    ⟨2, ⟨"a", "", "b.go", "go", "fn:B"⟩, "function", "", none, none, false, .none, none⟩,
    ⟨3, ⟨"a", "", "c.go", "go", "fn:C"⟩, "function", "", none, none, false, .none, none⟩,
    ⟨4, ⟨"a", "", "main.go", "go", "import:example.com/lib"⟩, "import", "", none, none, false, .none,
      none⟩,
    ⟨5, ⟨"a", "", "main.go", "go", "file"⟩, "file", "", none, none, false, .none, none⟩],
    by decide⟩, by decide⟩
  edges := ⟨[⟨2, 1, .refCall, "scip", none⟩, ⟨3, 2, .refCall, "scip", none⟩,
    ⟨5, 4, .depends, "tree-sitter", none⟩], by decide⟩

def callsScans : NodeScans (Reader.scan callsAndImport) := .inOrder _

theorem mem_edges_callsAndImport {e : EdgeRow} (he : e ∈ callsAndImport.edges) :
    e = ⟨2, 1, .refCall, "scip", none⟩ ∨ e = ⟨3, 2, .refCall, "scip", none⟩ ∨
      e = ⟨5, 4, .depends, "tree-sitter", none⟩ := by
  have he : e ∈ callsAndImport.edges.rows := he
  simpa only [callsAndImport, List.mem_cons, List.not_mem_nil, or_false] using he

theorem seededAt_callsAndImport {x : NodeId} (h : SeededAt callsAndImport "lib/a.go" x) : x = 1 := by
  obtain ⟨n, hn, rfl, hpath, -⟩ := h
  have hn : n ∈ callsAndImport.nodes.rows := hn
  simp only [callsAndImport, List.mem_cons, List.not_mem_nil, or_false] at hn
  rcases hn with rfl | rfl | rfl | rfl | rfl
  · rfl
  all_goals exact absurd hpath (by decide)

theorem belowCeiling_callsAndImport : BelowCeiling callsAndImport "lib/a.go" := by
  refine belowCeiling_of_subset (V := [1, 2, 3, 5]) (fun x hx => ?_) (by decide)
  have hsrc : ∀ {e : EdgeRow}, e ∈ callsAndImport.edges → e.src ∈ ([1, 2, 3, 5] : List NodeId) := by
    intro e he
    rcases mem_edges_callsAndImport he with rfl | rfl | rfl <;> decide
  cases hx with
  | seed hx => simp [seededAt_callsAndImport hx]
  | follow _ hstep =>
    obtain ⟨e, he, -, rfl, -⟩ := hstep
    exact hsrc he
  | imported _ _ hstep =>
    obtain ⟨-, -, -, -, e, he, -, rfl, -⟩ := hstep
    exact hsrc he

theorem keepsNearest_callsAndImport :
    (OrderedAtCap callsAndImport "lib/a.go" (fileCap (some 3)) →
      KeepsNearest callsScans "lib/a.go" (some 3)) ∧
      (NoTies callsAndImport "lib/a.go" → (KeepsNearest callsScans "lib/a.go" (some 3) ↔
        OrderedAtCap callsAndImport "lib/a.go" (fileCap (some 3)))) :=
  keepsNearest_of_orderedAtCap callsScans "lib/a.go" (some 3)
    ⟨1, _, List.mem_cons_self, rfl, rfl, by decide⟩ belowCeiling_callsAndImport

/-- With room for three files `c.go`, two calls away, is shown, and `main.go`, which imports the
queried file's package, is not. -/
theorem importer_cut_before_caller :
    (∃ x, SeededAt callsAndImport "lib/a.go" x) ∧ BelowCeiling callsAndImport "lib/a.go" ∧
      ¬ KeepsNearest callsScans "lib/a.go" (some 3) := by
  have hseed : SeededAt callsAndImport "lib/a.go" 1 := ⟨_, List.mem_cons_self, rfl, rfl, by decide⟩
  refine ⟨⟨1, hseed⟩, belowCeiling_callsAndImport, fun hkeeps => ?_⟩
  have hshown : (shownFiles (Reader.scan callsAndImport) callsScans .treeSitter (some 3)
      (callsScans.atPath "lib/a.go")).1 = ["b.go", "c.go", "lib/a.go"] := by decide +kernel
  have hfile : fileOf callsAndImport 1 = some "lib/a.go" := by decide
  have himport : ImportedBy callsAndImport Candidate "lib/a.go" 5 :=
    ⟨⟨4, ⟨"a", "", "main.go", "go", "import:example.com/lib"⟩, "import", "", none, none, false, .none,
      none⟩, by decide, rfl, by unfold Candidate SharesToken; decide,
      ⟨5, 4, .depends, "tree-sitter", none⟩, by decide, rfl, rfl, rfl⟩
  refine hkeeps.nearest "main.go" "c.go" ⟨5, .imported (.seed hseed) (pathOf_of_fileOf hfile) himport,
    by decide⟩ (by rw [hshown]; decide) (by rw [hshown]; decide) ⟨1, ⟨5, .importer (.start hseed) hfile
    himport, by decide⟩, ?_⟩
  -- No walk of less than two steps ends in `c.go`.
  rintro m ⟨x, hx, hxf⟩
  cases hx with
  | start hx =>
    rw [seededAt_callsAndImport hx] at hxf
    exact absurd hxf (by decide)
  | @edge n y _ hy hstep =>
    cases hy with
    | start hy =>
      obtain ⟨e, he, hdst, rfl, -⟩ := hstep
      rw [seededAt_callsAndImport hy] at hdst
      rcases mem_edges_callsAndImport he with rfl | rfl | rfl
      · exact absurd hxf (by decide)
      · exact absurd hdst (by decide)
      · exact absurd hdst (by decide)
    | edge _ _ => omega
    | importer _ _ _ => omega
  | importer _ _ hstep =>
    obtain ⟨-, -, -, -, e, he, -, rfl, hkind⟩ := hstep
    rcases mem_edges_callsAndImport he with rfl | rfl | rfl
    · exact absurd hkind (by decide)
    · exact absurd hkind (by decide)
    · exact absurd hxf (by decide)

end Travsr.Mcp
