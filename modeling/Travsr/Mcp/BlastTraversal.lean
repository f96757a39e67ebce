import Travsr.Lib.Alternation
import Travsr.Mcp.BlastRadius
import Travsr.Mcp.GraphWalk

namespace Travsr.Mcp

open Travsr.Core Travsr.Store Alternation

variable {s : SqliteStore} {r : Reader} {imports : List NodeRow} {limit : Nat} {st : Radius}

/-! ### The steps over the store -/

/-- An edge that is followed leads to the first node from the second. -/
def Follows (s : SqliteStore) (x y : NodeId) : Prop :=
  ∃ e, e ∈ s.edges ∧ e.dst = x ∧ e.src = y ∧ followedKind .treeSitter e.kind = true

def fileOf (s : SqliteStore) (x : NodeId) : Option String :=
  ((s.nodes.find? x).map fun n => n.vname.path).filter fun p => p ≠ ""

/-- The node depends on an import that is accepted for the file. -/
def ImportedBy (s : SqliteStore) (accepts : NodeRow → String → Prop) (file : String) (y : NodeId) :
    Prop :=
  ∃ row, row ∈ s.nodes ∧ row.kind = "import" ∧ accepts row file ∧
    ∃ e, e ∈ s.edges ∧ e.dst = row.id ∧ e.src = y ∧ e.kind = .depends

/-- The import's signature has a token of the name of the file's directory or of its stem. -/
def SharesToken (row : NodeRow) (file : String) : Prop :=
  ∃ token ∈ (blastRadiusHints file.toList).flatMap importSigTokens,
    token ∈ importSigTokens row.vname.signature.toList

/-- What the code takes for an import of the file. -/
def Candidate (row : NodeRow) (file : String) : Prop :=
  SharesToken row file ∧ importResolvesTo row file = true

theorem mem_retainFirst_id {α : Type} [DecidableEq α] {seen l : List α} {a : α} :
    a ∈ retainFirst id seen l ↔ a ∈ l ∧ a ∉ seen := by
  constructor
  · intro h
    refine ⟨(retainFirst_sublist seen l).subset h, ?_⟩
    induction l generalizing seen with
    | nil => cases h
    | cons b l ih =>
      rw [retainFirst] at h
      split_ifs at h with hb
      · exact ih h
      · rcases List.mem_cons.mp h with rfl | h
        · exact hb
        · exact fun hs => ih h (List.mem_cons_of_mem _ hs)
  · rintro ⟨ha, hseen⟩
    obtain ⟨b, hb, hkey⟩ := exists_mem_retainFirst id ha hseen
    have hkey : b = a := hkey
    exact hkey ▸ hb

theorem nodup_retainFirst_id {α : Type} [DecidableEq α] (seen l : List α) :
    (retainFirst id seen l).Nodup := by
  induction l generalizing seen with
  | nil => exact List.nodup_nil
  | cons b l ih =>
    rw [retainFirst]
    split_ifs
    · exact ih seen
    · refine List.nodup_cons.mpr ⟨fun h => ?_, ih _⟩
      exact (mem_retainFirst_id.mp h).2 List.mem_cons_self

theorem mem_importTokenIndex {token : List Char} {idx : Nat} :
    idx ∈ importTokenIndex imports token ↔
      ∃ row, imports[idx]? = some row ∧ token ∈ importSigTokens row.vname.signature.toList := by
  unfold importTokenIndex
  rw [List.mem_flatMap]
  constructor
  · rintro ⟨⟨row, i⟩, hrow, hidx⟩
    obtain ⟨t, ht, rfl⟩ := List.mem_map.mp hidx
    obtain ⟨ht, heq⟩ := List.mem_filter.mp ht
    rw [decide_eq_true_eq] at heq
    exact ⟨row, List.mem_zipIdx_iff_getElem?.mp hrow, heq ▸ ht⟩
  · rintro ⟨row, hrow, ht⟩
    refine ⟨(row, idx), List.mem_zipIdx_iff_getElem?.mpr hrow, List.mem_map.mpr ⟨token, ?_, rfl⟩⟩
    exact List.mem_filter.mpr ⟨ht, by simp⟩

theorem mem_importCandidates {file : String} {idx : Nat} :
    idx ∈ importCandidates imports file ↔
      ∃ row, imports[idx]? = some row ∧ SharesToken row file := by
  unfold importCandidates
  rw [mem_retainFirst_id, List.mem_flatMap]
  constructor
  · rintro ⟨⟨token, htoken, hidx⟩, -⟩
    obtain ⟨row, hrow, ht⟩ := mem_importTokenIndex.mp hidx
    exact ⟨row, hrow, token, htoken, ht⟩
  · rintro ⟨row, hrow, token, htoken, ht⟩
    exact ⟨⟨token, htoken, mem_importTokenIndex.mpr ⟨row, hrow, ht⟩⟩, List.not_mem_nil⟩

theorem mem_newSrcs {visited : List NodeId} {x y : NodeId} :
    y ∈ newSrcs visited ((r.iterEdgesTo x).filter fun e => followedKind .treeSitter e.kind) ↔
      Follows r.store x y ∧ y ∉ visited := by
  unfold newSrcs
  rw [mem_retainFirst_id]
  refine and_congr_left fun _ => ?_
  rw [List.mem_map]
  constructor
  · rintro ⟨e, he, rfl⟩
    obtain ⟨he, hkind⟩ := List.mem_filter.mp he
    obtain ⟨row, hrow, rfl⟩ := List.mem_map.mp he
    have hrow := (r.to_perm x).mem_iff.mp hrow
    rw [List.mem_filter, decide_eq_true_eq] at hrow
    exact ⟨row, hrow.1, hrow.2, rfl, hkind⟩
  · rintro ⟨row, hrow, hdst, hsrc, hkind⟩
    refine ⟨{ row.toEdge with confidence := none }, List.mem_filter.mpr ⟨?_, hkind⟩, hsrc⟩
    refine List.mem_map.mpr ⟨row, (r.to_perm x).mem_iff.mpr ?_, rfl⟩
    rw [List.mem_filter, decide_eq_true_eq]
    exact ⟨hrow, hdst⟩

theorem mem_importers {id y : NodeId} :
    y ∈ importers r id ↔ ∃ e, e ∈ r.store.edges ∧ e.dst = id ∧ e.src = y ∧ e.kind = .depends := by
  unfold importers
  rw [List.mem_map]
  constructor
  · rintro ⟨e, he, rfl⟩
    obtain ⟨he, hkind⟩ := List.mem_filter.mp he
    obtain ⟨row, hrow, rfl⟩ := List.mem_map.mp he
    have hrow := (r.to_perm id).mem_iff.mp hrow
    rw [List.mem_filter, decide_eq_true_eq] at hrow
    exact ⟨row, hrow.1, hrow.2, rfl, of_decide_eq_true hkind⟩
  · rintro ⟨row, hrow, hdst, hsrc, hkind⟩
    refine ⟨{ row.toEdge with confidence := none }, List.mem_filter.mpr ⟨?_, decide_eq_true hkind⟩,
      hsrc⟩
    refine List.mem_map.mpr ⟨row, (r.to_perm id).mem_iff.mpr ?_, rfl⟩
    rw [List.mem_filter, decide_eq_true_eq]
    exact ⟨hrow, hdst⟩

/-! ### The files of the visited nodes -/

def noteFile (s : SqliteStore) (order : List String) (x : NodeId) : List String :=
  match fileOf s x with
  | some f => if f ∈ order then order else order ++ [f]
  | none => order

def filesOf (s : SqliteStore) (visited : List NodeId) : List String :=
  visited.foldl (noteFile s) []

theorem filesOf_append (V W : List NodeId) :
    filesOf s (V ++ W) = W.foldl (noteFile s) (filesOf s V) := List.foldl_append

theorem mem_foldl_noteFile {order : List String} {V : List NodeId} {f : String} :
    f ∈ V.foldl (noteFile s) order ↔ f ∈ order ∨ ∃ x ∈ V, fileOf s x = some f := by
  induction V generalizing order with
  | nil => simp
  | cons x V ih =>
    rw [List.foldl_cons, ih, List.exists_mem_cons_iff, ← or_assoc]
    refine or_congr_left ?_
    unfold noteFile
    cases hf : fileOf s x with
    | none => simp
    | some g =>
      dsimp only
      split_ifs with hg
      · refine ⟨.inl, fun h => h.elim id fun h => ?_⟩
        exact Option.some.inj h ▸ hg
      · rw [List.mem_append, List.mem_singleton, Option.some.injEq]
        exact or_congr_right eq_comm

theorem mem_filesOf {V : List NodeId} {f : String} :
    f ∈ filesOf s V ↔ ∃ x ∈ V, fileOf s x = some f := by
  unfold filesOf
  rw [mem_foldl_noteFile]
  simp

theorem nodup_filesOf (V : List NodeId) : (filesOf s V).Nodup := by
  have hgen : ∀ order : List String, order.Nodup → (V.foldl (noteFile s) order).Nodup := by
    induction V with
    | nil => exact fun _ h => h
    | cons x V ih =>
      intro order h
      rw [List.foldl_cons]
      apply ih
      unfold noteFile
      split
      · case _ f _ =>
          split_ifs with hf
          · exact h
          · exact List.nodup_append.mpr ⟨h, List.nodup_singleton f, fun a ha b hb hab =>
              hf (List.mem_singleton.mp hb ▸ hab ▸ ha)⟩
      · exact h
  exact hgen [] List.nodup_nil

theorem noteFile_of_mem {V : List NodeId} {x : NodeId} (hx : x ∈ V) :
    noteFile s (filesOf s V) x = filesOf s V := by
  unfold noteFile
  split
  · case _ f hf => rw [if_pos (mem_filesOf.mpr ⟨x, hx, hf⟩)]
  · rfl

theorem pairwise_filesOf (V : List NodeId) :
    (filesOf s V).Pairwise (LabelBefore (fileOf s) V) := by
  induction V using List.reverseRecOn with
  | nil => exact .nil
  | append_singleton V x ih =>
    have hgrow : ∀ f g, g ∈ filesOf s V → LabelBefore (fileOf s) V f g →
        LabelBefore (fileOf s) (V ++ [x]) f g := by
      rintro f g hg ⟨u, hu, huf, hfirst⟩
      refine ⟨u, List.mem_append_left _ hu, huf, fun x' hx' hx'g => ?_⟩
      rcases List.mem_append.mp hx' with hx' | hx'
      · exact (hfirst x' hx' hx'g).trans (List.sublist_append_left V [x])
      · rw [List.mem_singleton.mp hx']
        exact (List.singleton_sublist.mpr hu).append (List.Sublist.refl [x])
    have hold : (filesOf s V).Pairwise (LabelBefore (fileOf s) (V ++ [x])) :=
      ih.imp_of_mem fun hf hg h => hgrow _ _ hg h
    rw [filesOf_append]
    change (noteFile s (filesOf s V) x).Pairwise _
    unfold noteFile
    cases hxg : fileOf s x with
    | none => exact hold
    | some g =>
      dsimp only
      split_ifs with hg
      · exact hold
      · refine List.pairwise_append.mpr ⟨hold, List.pairwise_singleton _ g, fun f hf g' hg' => ?_⟩
        obtain ⟨u, hu, huf⟩ := mem_filesOf.mp hf
        refine ⟨u, List.mem_append_left _ hu, huf, fun x' hx' hx'g => ?_⟩
        rw [List.mem_singleton.mp hg'] at hx'g
        rcases List.mem_append.mp hx' with hx' | hx'
        · exact absurd (mem_filesOf.mpr ⟨x', hx', hx'g⟩) hg
        · rw [List.mem_singleton.mp hx']
          exact (List.singleton_sublist.mpr hu).append (List.Sublist.refl [x])

/-! ### The moves of a traversal that is not stopped -/

/-- No more files belong to such nodes than the limit allows. -/
def Room (s : SqliteStore) (limit : Nat) (W : NodeId → Prop) : Prop :=
  ∀ l : List String, l.Nodup → (∀ f ∈ l, ∃ x, W x ∧ fileOf s x = some f) → l.length < limit

theorem Room.length_filesOf {W : NodeId → Prop} (h : Room s limit W) {V : List NodeId}
    (hV : ∀ x ∈ V, W x) : (filesOf s V).length < limit := by
  refine h _ (nodup_filesOf V) fun f hf => ?_
  obtain ⟨x, hx, hxf⟩ := mem_filesOf.mp hf
  exact ⟨x, hV x hx, hxf⟩

theorem reachNode_eq {x : NodeId} (hhalted : st.halted = false)
    (hroom : (noteFile r.store st.affectedOrder x).length < limit) :
    reachNode r limit st x =
      { st with affectedOrder := noteFile r.store st.affectedOrder x } := by
  unfold reachNode
  rw [if_neg (by simp [hhalted]), Reader.getNode]
  unfold noteFile fileOf at *
  cases hfind : r.store.nodes.find? x with
  | none => rfl
  | some row =>
    rw [hfind] at hroom
    simp only [Option.map_some] at hroom ⊢
    have hpath : row.toNode.vname.path = row.vname.path := rfl
    rw [hpath, reachPath]
    by_cases hempty : row.vname.path = ""
    · rw [if_pos (.inl hempty), Option.filter_some_neg (by simpa using hempty)]
    · rw [Option.filter_some_pos (by simpa using hempty)] at hroom ⊢
      dsimp only at hroom ⊢
      by_cases hmem : row.vname.path ∈ st.affectedOrder
      · rw [if_pos (.inr hmem), if_pos hmem]
      · rw [if_neg hmem, List.length_append, List.length_singleton] at hroom
        rw [if_neg (not_or.mpr ⟨hempty, hmem⟩), if_neg hmem,
          decide_eq_false (Nat.not_le.mpr hroom), ← hhalted]

theorem foldl_reachNode {W : NodeId → Prop} (hroom : Room r.store limit W) (l : List NodeId)
    {V : List NodeId} (hW : ∀ x ∈ V ++ l, W x) (hhalted : st.halted = false)
    (horder : st.affectedOrder = filesOf r.store V) :
    l.foldl (reachNode r limit) st = { st with affectedOrder := filesOf r.store (V ++ l) } := by
  induction l generalizing V st with
  | nil => rw [List.foldl_nil, List.append_nil, ← horder]
  | cons x l ih =>
    have hlist : V ++ x :: l = V ++ [x] ++ l := by simp
    have hnote : noteFile r.store st.affectedOrder x = filesOf r.store (V ++ [x]) := by
      rw [filesOf_append, horder]
      rfl
    have hlen : (noteFile r.store st.affectedOrder x).length < limit := by
      rw [hnote]
      apply hroom.length_filesOf
      intro z hz
      apply hW
      rw [hlist]
      exact List.mem_append_left l hz
    rw [List.foldl_cons, reachNode_eq hhalted hlen, hnote, hlist]
    exact ih (fun z hz => hW z (hlist ▸ hz)) hhalted rfl

/-- A traversal that is not stopped. -/
structure Live (r : Reader) (imports : List NodeRow) (st : Radius) : Prop where
  halted : st.halted = false
  order : st.affectedOrder = filesOf r.store st.visited
  resolved : ∀ idx ∈ st.resolvedImports, ∀ row, imports[idx]? = some row →
    ∀ y ∈ importers r row.id, y ∈ st.visited

/-- While the importers of a file join the nodes met before and the queue before; `R` are the
imports whose importers are visited. -/
structure InFile (r : Reader) (imports : List NodeRow) (V Q : List NodeId) (f : String)
    (R : List Nat) (st : Radius) : Prop where
  halted : st.halted = false
  order : st.affectedOrder = filesOf r.store st.visited
  resolved : ∀ idx ∈ R, ∀ row, imports[idx]? = some row → ∀ y ∈ importers r row.id, y ∈ st.visited
  grown : ∃ group, st.visited = V ++ group ∧ st.queue = Q ++ group ∧ group.Nodup ∧
    ∀ y ∈ group, y ∉ V ∧ ImportedBy r.store Candidate f y

section pass

variable {V Q : List NodeId} {f : String} {W : NodeId → Prop} {R : List Nat}

theorem InFile.reached (hV : ∀ x ∈ V, W x)
    (hfar : ∀ y, ImportedBy r.store Candidate f y → W y)
    (h : InFile r imports V Q f R st) : ∀ x ∈ st.visited, W x := by
  intro x hx
  obtain ⟨group, hvisited, -, -, hgroup⟩ := h.grown
  rw [hvisited] at hx
  rcases List.mem_append.mp hx with hx | hx
  · exact hV x hx
  · exact hfar x (hgroup x hx).2

theorem InFile.reachImporter (hroom : Room r.store limit W) (hW : ∀ x ∈ st.visited, W x)
    (h : InFile r imports V Q f R st) {y : NodeId}
    (hy : ImportedBy r.store Candidate f y) (hWy : W y) :
    InFile r imports V Q f R (Mcp.reachImporter r limit st y) ∧
      (∀ x, x ∈ (Mcp.reachImporter r limit st y).visited ↔ x ∈ st.visited ∨ x = y) ∧
      (Mcp.reachImporter r limit st y).phase2Done = st.phase2Done ∧
      (Mcp.reachImporter r limit st y).resolvedImports = st.resolvedImports := by
  unfold Mcp.reachImporter
  rw [if_neg (by simp [h.halted])]
  unfold visit
  by_cases hmem : y ∈ st.visited
  · have hnote : noteFile r.store st.affectedOrder y = st.affectedOrder := by
      rw [h.order, noteFile_of_mem hmem]
    have hlen : (noteFile r.store st.affectedOrder y).length < limit := by
      rw [hnote, h.order]
      exact hroom.length_filesOf hW
    rw [if_pos hmem, reachNode_eq h.halted hlen, hnote]
    exact ⟨h, fun x => ⟨.inl, fun hx => hx.elim id fun heq => heq ▸ hmem⟩, rfl, rfl⟩
  · have hnote : noteFile r.store st.affectedOrder y = filesOf r.store (st.visited ++ [y]) := by
      rw [filesOf_append, h.order]
      rfl
    have hlen : (noteFile r.store st.affectedOrder y).length < limit := by
      rw [hnote]
      apply hroom.length_filesOf
      intro x hx
      rcases List.mem_append.mp hx with hx | hx
      · exact hW x hx
      · exact List.mem_singleton.mp hx ▸ hWy
    rw [if_neg hmem, reachNode_eq (by exact h.halted) (by exact hlen)]
    obtain ⟨group, hvisited, hqueue, hnodup, hgroup⟩ := h.grown
    have hyV : y ∉ V := fun hV => hmem (hvisited ▸ List.mem_append_left _ hV)
    have hyg : y ∉ group := fun hg => hmem (hvisited ▸ List.mem_append_right _ hg)
    refine ⟨⟨h.halted, hnote, fun idx hidx row hrow x hx => List.mem_append_left _
      (h.resolved idx hidx row hrow x hx), group ++ [y], ?_, ?_, ?_, fun x hx => ?_⟩,
      fun x => ?_, rfl, rfl⟩
    · dsimp only
      rw [hvisited, List.append_assoc]
    · dsimp only
      rw [hqueue, List.append_assoc]
    · exact List.nodup_append.mpr ⟨hnodup, List.nodup_singleton y, fun a ha b hb hab =>
        hyg (List.mem_singleton.mp hb ▸ hab ▸ ha)⟩
    · rcases List.mem_append.mp hx with hx | hx
      · exact hgroup x hx
      · rw [List.mem_singleton.mp hx]
        exact ⟨hyV, hy⟩
    · rw [List.mem_append, List.mem_singleton]

variable (hroom : Room r.store limit W) (hV : ∀ x ∈ V, W x)
  (hfar : ∀ y, ImportedBy r.store Candidate f y → W y)

include hroom hV hfar

theorem InFile.foldl_reachImporter (h : InFile r imports V Q f R st)
    {l : List NodeId} (hl : ∀ y ∈ l, ImportedBy r.store Candidate f y) :
    InFile r imports V Q f R (l.foldl (Mcp.reachImporter r limit) st) ∧
      (∀ x, x ∈ (l.foldl (Mcp.reachImporter r limit) st).visited ↔ x ∈ st.visited ∨ x ∈ l) ∧
      (l.foldl (Mcp.reachImporter r limit) st).phase2Done = st.phase2Done ∧
      (l.foldl (Mcp.reachImporter r limit) st).resolvedImports = st.resolvedImports := by
  induction l generalizing st with
  | nil => exact ⟨h, by simp, rfl, rfl⟩
  | cons y l ih =>
    obtain ⟨hy, hl⟩ := List.forall_mem_cons.mp hl
    obtain ⟨h', hvisited, hdone, hresolved⟩ :=
      h.reachImporter hroom (h.reached hV hfar) hy (hfar y hy)
    obtain ⟨h'', hvisited', hdone', hresolved'⟩ := ih h' hl
    refine ⟨h'', fun x => ?_, hdone'.trans hdone, hresolved'.trans hresolved⟩
    rw [List.foldl_cons, hvisited', hvisited, List.mem_cons, or_assoc]

variable (himports : ∀ row ∈ imports, row ∈ r.store.nodes ∧ row.kind = "import")

include himports

/-- An import that is looked at for a file has its importers visited if it resolves to the file. -/
theorem InFile.checkImport (h : InFile r imports V Q f st.resolvedImports st) {idx : Nat}
    (hidx : idx ∈ importCandidates imports f) :
    InFile r imports V Q f (Mcp.checkImport r imports limit f st idx).resolvedImports
        (Mcp.checkImport r imports limit f st idx) ∧
      (∀ x ∈ st.visited, x ∈ (Mcp.checkImport r imports limit f st idx).visited) ∧
      (Mcp.checkImport r imports limit f st idx).phase2Done = st.phase2Done ∧
      ∀ row, imports[idx]? = some row → importResolvesTo row f = true →
        ∀ y ∈ importers r row.id, y ∈ (Mcp.checkImport r imports limit f st idx).visited := by
  obtain ⟨row, hrow, hshare⟩ := mem_importCandidates.mp hidx
  unfold Mcp.checkImport
  by_cases hres : idx ∈ st.resolvedImports
  · rw [if_pos (.inr hres)]
    exact ⟨h, fun x hx => hx, rfl, fun row' hrow' _ => h.resolved idx hres row' hrow'⟩
  · rw [if_neg (by simp [h.halted, hres]), hrow]
    dsimp only
    by_cases haccept : importResolvesTo row f = true
    · rw [if_pos haccept]
      have hmem := himports row (List.mem_of_getElem? hrow)
      have hl : ∀ y ∈ importers r row.id, ImportedBy r.store Candidate f y := by
        intro y hy
        exact ⟨row, hmem.1, hmem.2, ⟨hshare, haccept⟩, mem_importers.mp hy⟩
      have hst : InFile r imports V Q f st.resolvedImports
          { st with resolvedImports := idx :: st.resolvedImports } :=
        ⟨h.halted, h.order, h.resolved, h.grown⟩
      obtain ⟨h', hvisited, hdone, hresolved⟩ := hst.foldl_reachImporter hroom hV hfar hl
      have hall : ∀ y ∈ importers r row.id, y ∈ ((importers r row.id).foldl
          (Mcp.reachImporter r limit)
          { st with resolvedImports := idx :: st.resolvedImports }).visited :=
        fun y hy => (hvisited y).mpr (.inr hy)
      refine ⟨⟨h'.halted, h'.order, ?_, h'.grown⟩,
        fun x hx => (hvisited x).mpr (.inl hx), hdone, fun row' hrow' _ => ?_⟩
      · rw [hresolved]
        intro i hi row' hrow' y hy
        rcases List.mem_cons.mp hi with rfl | hi
        · rw [hrow] at hrow'
          exact hall y (Option.some.inj hrow' ▸ hy)
        · exact h'.resolved i hi row' hrow' y hy
      · rw [← Option.some.inj hrow']
        exact hall
    · rw [if_neg haccept]
      refine ⟨h, fun x hx => hx, rfl, fun row' hrow' hacc => absurd ?_ haccept⟩
      rw [Option.some.inj hrow']
      exact hacc

theorem InFile.foldl_checkImport (h : InFile r imports V Q f st.resolvedImports st) {l : List Nat}
    (hl : ∀ idx ∈ l, idx ∈ importCandidates imports f) :
    InFile r imports V Q f (l.foldl (Mcp.checkImport r imports limit f) st).resolvedImports
        (l.foldl (Mcp.checkImport r imports limit f) st) ∧
      (∀ x ∈ st.visited, x ∈ (l.foldl (Mcp.checkImport r imports limit f) st).visited) ∧
      (l.foldl (Mcp.checkImport r imports limit f) st).phase2Done = st.phase2Done ∧
      ∀ idx ∈ l, ∀ row, imports[idx]? = some row → importResolvesTo row f = true →
        ∀ y ∈ importers r row.id, y ∈ (l.foldl (Mcp.checkImport r imports limit f) st).visited := by
  induction l generalizing st with
  | nil => exact ⟨h, fun x hx => hx, rfl, fun idx hidx => by cases hidx⟩
  | cons i l ih =>
    obtain ⟨hi, hl⟩ := List.forall_mem_cons.mp hl
    obtain ⟨h', hkept, hdone, hall⟩ := h.checkImport hroom hV hfar himports hi
    obtain ⟨h'', hkept', hdone', hall'⟩ := ih h' hl
    refine ⟨h'', fun x hx => hkept' x (hkept x hx), hdone'.trans hdone, ?_⟩
    intro idx hidx row hrow hacc y hy
    rcases List.mem_cons.mp hidx with rfl | hidx
    · exact hkept' y (hall row hrow hacc y hy)
    · exact hall' idx hidx row hrow hacc y hy

end pass

section files

variable {W : NodeId → Prop} (hroom : Room r.store limit W)
  (himports : ∀ row ∈ imports, row ∈ r.store.nodes ∧ row.kind = "import")
  (hcomplete : ∀ row, row ∈ r.store.nodes → row.kind = "import" → row ∈ imports)

include hroom himports hcomplete

theorem Live.resolveFile (h : Live r imports st) (hW : ∀ x ∈ st.visited, W x) {f : String}
    (hfar : ∀ y, ImportedBy r.store Candidate f y → W y) :
    Live r imports (Mcp.resolveFile r imports limit st f) ∧
      (Mcp.resolveFile r imports limit st f).phase2Done = f :: st.phase2Done ∧
      ∃ group, (Mcp.resolveFile r imports limit st f).visited = st.visited ++ group ∧
        (Mcp.resolveFile r imports limit st f).queue = st.queue ++ group ∧ group.Nodup ∧
        (∀ y ∈ group, y ∉ st.visited ∧ ImportedBy r.store Candidate f y) ∧
        ∀ y, ImportedBy r.store Candidate f y → y ∈ st.visited ++ group := by
  unfold Mcp.resolveFile
  rw [if_neg (by simp [h.halted])]
  have hst : InFile r imports st.visited st.queue f
      { st with phase2Done := f :: st.phase2Done }.resolvedImports
      { st with phase2Done := f :: st.phase2Done } :=
    ⟨h.halted, h.order, h.resolved, [], (List.append_nil _).symm, (List.append_nil _).symm,
      List.nodup_nil, fun y hy => (List.not_mem_nil hy).elim⟩
  obtain ⟨h', -, hdone, hall⟩ := hst.foldl_checkImport hroom hW hfar himports fun idx hidx => hidx
  obtain ⟨group, hvisited, hqueue, hnodup, hgroup⟩ := h'.grown
  refine ⟨⟨h'.halted, h'.order, h'.resolved⟩, hdone, group, hvisited, hqueue, hnodup, hgroup, ?_⟩
  rintro y ⟨row, hrow, hkind, ⟨hshare, hacc⟩, hedge⟩
  obtain ⟨idx, hlt, hget⟩ := List.mem_iff_getElem.mp (hcomplete row hrow hkind)
  have hidx : imports[idx]? = some row := by rw [List.getElem?_eq_getElem hlt, hget]
  rw [← hvisited]
  exact hall idx (mem_importCandidates.mpr ⟨row, hidx, hshare⟩) row hidx hacc y
    (mem_importers.mpr hedge)

theorem Live.foldl_resolveFile (h : Live r imports st) (hW : ∀ x ∈ st.visited, W x)
    {l : List String} (hfar : ∀ f ∈ l, ∀ y, ImportedBy r.store Candidate f y → W y) :
    Live r imports (l.foldl (Mcp.resolveFile r imports limit) st) ∧
      (∀ f, f ∈ (l.foldl (Mcp.resolveFile r imports limit) st).phase2Done ↔
        f ∈ st.phase2Done ∨ f ∈ l) ∧
      ∃ added, (l.foldl (Mcp.resolveFile r imports limit) st).visited = st.visited ++ added ∧
        (l.foldl (Mcp.resolveFile r imports limit) st).queue = st.queue ++ added ∧
        Gathered (ImportedBy r.store Candidate) st.visited l added := by
  induction l generalizing st with
  | nil =>
    exact ⟨h, by simp, [], (List.append_nil _).symm, (List.append_nil _).symm, .nil⟩
  | cons f l ih =>
    obtain ⟨hf, hl⟩ := List.forall_mem_cons.mp hfar
    obtain ⟨h', hdone, group, hvisited, hqueue, hnodup, hgroup, hall⟩ :=
      h.resolveFile hroom himports hcomplete hW hf
    have hW' : ∀ x ∈ (Mcp.resolveFile r imports limit st f).visited, W x := by
      intro x hx
      rw [hvisited] at hx
      exact (List.mem_append.mp hx).elim (hW x) fun hx => hf x (hgroup x hx).2
    obtain ⟨h'', hdone', added, hvisited', hqueue', hgathered⟩ := ih h' hW' hl
    rw [List.foldl_cons]
    refine ⟨h'', fun g => ?_, group ++ added, ?_, ?_, ?_⟩
    · rw [hdone', hdone, List.mem_cons, List.mem_cons, or_comm (a := g = f), or_assoc]
    · rw [hvisited', hvisited, List.append_assoc]
    · rw [hqueue', hqueue, List.append_assoc]
    · exact .cons hnodup hgroup hall (hvisited ▸ hgathered)

end files

/-! ### The whole traversal -/

abbrev CodeWalk (s : SqliteStore) (seeds : List NodeId) : List Nat → NodeId → Prop :=
  Alternation.Walk (Follows s) (fileOf s) (ImportedBy s Candidate) seeds

def Reached (s : SqliteStore) (seeds : List NodeId) (x : NodeId) : Prop :=
  ∃ k, CodeWalk s seeds k x

def Radius.ledger (st : Radius) : Ledger NodeId String := ⟨st.visited, st.queue, st.phase2Done⟩

/-- Between two turns of a traversal that is not stopped. -/
structure Steady (r : Reader) (imports : List NodeRow) (seeds : List NodeId) (st : Radius) :
    Prop extends Live r imports st where
  kept : ∃ i, Kept (Follows r.store) (fileOf r.store) (ImportedBy r.store Candidate) seeds i st.ledger

/-- The imports of a scan are the store's import nodes. -/
structure Scanned (s : SqliteStore) (imports : List NodeRow) : Prop where
  sound : ∀ row ∈ imports, row ∈ s.nodes ∧ row.kind = "import"
  complete : ∀ row, row ∈ s.nodes → row.kind = "import" → row ∈ imports

theorem NodeScans.scanned (scans : NodeScans r) : Scanned r.store scans.imports where
  sound := fun row hrow => by
    have := scans.imports_perm.mem_iff.mp hrow
    rw [List.mem_filter, decide_eq_true_eq] at this
    exact this
  complete := fun row hrow hkind => by
    refine scans.imports_perm.mem_iff.mpr ?_
    rw [List.mem_filter, decide_eq_true_eq]
    exact ⟨hrow, hkind⟩

variable {seeds : List NodeId}

theorem Steady.drain (hroom : Room r.store limit (Reached r.store seeds))
    (h : Steady r imports seeds st) {current : NodeId} {rest : List NodeId}
    (hq : st.queue = current :: rest) :
    Steady r imports seeds (followEdges r .treeSitter limit current rest st) ∧
      Alternation.Turn (Follows r.store) (fileOf r.store) (ImportedBy r.store Candidate) st.ledger
        (followEdges r .treeSitter limit current rest st).ledger := by
  obtain ⟨i, hkept⟩ := h.kept
  have hledger : st.ledger = ⟨st.visited, current :: rest, st.phase2Done⟩ := by
    rw [Radius.ledger, hq]
  rw [hledger] at hkept
  have hfresh : ∀ y, y ∈ newSrcs st.visited
      ((r.iterEdgesTo current).filter fun e => followedKind .treeSitter e.kind) ↔
      Follows r.store current y ∧ y ∉ st.visited := fun y => mem_newSrcs
  have hnodup := nodup_retainFirst_id st.visited
    (((r.iterEdgesTo current).filter fun e => followedKind .treeSitter e.kind).map Edge.src)
  unfold followEdges
  change (newSrcs _ _).Nodup at hnodup
  generalize newSrcs st.visited
    ((r.iterEdgesTo current).filter fun e => followedKind .treeSitter e.kind) = fresh at *
  have hnext := hkept.drain hnodup hfresh
  have hwalked : ∀ x ∈ st.visited ++ fresh, Reached r.store seeds x := hnext.walked
  have hfold : fresh.foldl (reachNode r limit)
        { st with visited := st.visited ++ fresh, queue := rest ++ fresh } =
      { st with
        visited := st.visited ++ fresh
        queue := rest ++ fresh
        affectedOrder := filesOf r.store (st.visited ++ fresh) } :=
    foldl_reachNode hroom fresh hwalked h.halted h.order
  dsimp only at hfold ⊢
  rw [hfold]
  refine ⟨⟨⟨h.halted, rfl, ?_⟩, i, hnext⟩, ?_⟩
  · exact fun idx hidx row hrow y hy => List.mem_append_left _ (h.resolved idx hidx row hrow y hy)
  · rw [hledger]
    exact .drain hnodup hfresh

theorem Steady.pass (hroom : Room r.store limit (Reached r.store seeds))
    (hscan : Scanned r.store imports) (h : Steady r imports seeds st) (hq : st.queue = [])
    (htodo : st.todo ≠ []) :
    Steady r imports seeds (st.todo.foldl (resolveFile r imports limit) st) ∧
      Alternation.Turn (Follows r.store) (fileOf r.store) (ImportedBy r.store Candidate) st.ledger
        (st.todo.foldl (resolveFile r imports limit) st).ledger := by
  obtain ⟨i, hkept⟩ := h.kept
  have hledger : st.ledger = ⟨st.visited, [], st.phase2Done⟩ := by rw [Radius.ledger, hq]
  have hmem : ∀ f, f ∈ st.todo ↔ (∃ x ∈ st.visited, fileOf r.store x = some f) ∧
      f ∉ st.phase2Done := by
    intro f
    rw [Radius.todo, List.mem_filter, decide_eq_true_eq, h.order, mem_filesOf]
  have horder : st.todo.Pairwise (LabelBefore (fileOf r.store) st.visited) := by
    rw [Radius.todo, h.order]
    exact (pairwise_filesOf st.visited).filter _
  have hwalked : ∀ x ∈ st.visited, Reached r.store seeds x := hkept.walked
  have hfar : ∀ f ∈ st.todo, ∀ y, ImportedBy r.store Candidate f y →
      Reached r.store seeds y := by
    intro f hf y hy
    obtain ⟨⟨x, hx, hxf⟩, -⟩ := (hmem f).mp hf
    obtain ⟨k, hwalk⟩ := hwalked x hx
    exact ⟨0 :: k, hwalk.far hxf hy⟩
  obtain ⟨hlive, hdone, added, hvisited, hqueue, hgathered⟩ :=
    h.toLive.foldl_resolveFile hroom hscan.sound hscan.complete hwalked hfar
  generalize st.todo.foldl (resolveFile r imports limit) st = st' at *
  have hledger' : st'.ledger = ⟨st.visited ++ added, added, st'.phase2Done⟩ := by
    rw [Radius.ledger, hvisited, hqueue, hq, List.nil_append]
  have hturn : Alternation.Turn (Follows r.store) (fileOf r.store) (ImportedBy r.store Candidate)
      st.ledger st'.ledger := by
    rw [hledger, hledger']
    exact .pass htodo hmem horder hgathered hdone
  exact ⟨⟨hlive, hkept.turn hturn⟩, hturn⟩

theorem radiusStep_cases {st' : Radius}
    (hstep : radiusStep r imports .treeSitter limit st = some st') :
    (∃ current rest, st.queue = current :: rest ∧
      st' = followEdges r .treeSitter limit current rest st) ∨
    (st.queue = [] ∧ st.todo ≠ [] ∧ st' = st.todo.foldl (resolveFile r imports limit) st) := by
  unfold radiusStep at hstep
  by_cases hstop : st.halted ∨ MAX_BLAST_RADIUS_NODES ≤ st.visited.length
  · rw [if_pos hstop] at hstep
    cases hstep
  · rw [if_neg hstop] at hstep
    cases hq : st.queue with
    | cons current rest =>
      rw [hq] at hstep
      exact .inl ⟨current, rest, rfl, (Option.some.inj hstep).symm⟩
    | nil =>
      rw [hq] at hstep
      dsimp only at hstep
      split_ifs at hstep with hend
      rw [not_or, not_or] at hend
      exact .inr ⟨rfl, hend.2.2, (Option.some.inj hstep).symm⟩

theorem Steady.step (hroom : Room r.store limit (Reached r.store seeds))
    (hscan : Scanned r.store imports) (h : Steady r imports seeds st) {st' : Radius}
    (hstep : radiusStep r imports .treeSitter limit st = some st') :
    Steady r imports seeds st' ∧ Alternation.Turn (Follows r.store) (fileOf r.store)
      (ImportedBy r.store Candidate) st.ledger st'.ledger := by
  rcases radiusStep_cases hstep with ⟨current, rest, hq, rfl⟩ | ⟨hq, htodo, rfl⟩
  · exact h.drain hroom hq
  · exact h.pass hroom hscan hq htodo

theorem length_filesOf_le (V : List NodeId) : (filesOf r.store V).length ≤ V.length := by
  have hgen : ∀ order : List String,
      (V.foldl (noteFile r.store) order).length ≤ order.length + V.length := by
    induction V with
    | nil => exact fun order => le_rfl
    | cons x V ih =>
      intro order
      rw [List.foldl_cons, List.length_cons]
      refine (ih _).trans ?_
      have hone : (noteFile r.store order x).length ≤ order.length + 1 := by
        unfold noteFile
        split
        · split_ifs
          · exact Nat.le_succ _
          · rw [List.length_append, List.length_singleton]
        · exact Nat.le_succ _
      omega
  have h := hgen []
  rwa [List.length_nil, Nat.zero_add] at h

theorem Steady.finished (hmax : ∀ l : List NodeId, l.Nodup → (∀ x ∈ l, Reached r.store seeds x) →
      l.length < MAX_BLAST_RADIUS_NODES)
    (h : Steady r imports seeds st) (hend : radiusStep r imports .treeSitter limit st = none) :
    st.queue = [] ∧ st.todo = [] := by
  obtain ⟨i, hkept⟩ := h.kept
  have hlt := hmax st.visited hkept.nodup hkept.walked
  have hle := length_filesOf_le (r := r) st.visited
  rw [← h.order] at hle
  unfold radiusStep at hend
  rw [if_neg (by simp [h.halted, hlt])] at hend
  split at hend
  · cases hend
  · case _ hq =>
      split_ifs at hend with hstop
      refine ⟨hq, ?_⟩
      rcases hstop with hmode | hceil | htodo
      · exact absurd rfl hmode
      · omega
      · exact htodo

theorem Steady.visited_iff (hmax : ∀ l : List NodeId, l.Nodup → (∀ x ∈ l, Reached r.store seeds x) →
      l.length < MAX_BLAST_RADIUS_NODES)
    (h : Steady r imports seeds st) (hend : radiusStep r imports .treeSitter limit st = none)
    (x : NodeId) : x ∈ st.visited ↔ Reached r.store seeds x := by
  obtain ⟨hq, htodo⟩ := h.finished hmax hend
  obtain ⟨i, hkept⟩ := h.kept
  rw [Radius.ledger, hq] at hkept
  refine hkept.complete (fun y hy f hf => ?_) x
  by_contra hfd
  have hmem : f ∈ st.todo := by
    rw [Radius.todo, List.mem_filter, decide_eq_true_eq, h.order, mem_filesOf]
    exact ⟨⟨y, hy, hf⟩, hfd⟩
  rw [htodo] at hmem
  cases hmem

theorem fileOf_row {n : NodeRow} (hn : n ∈ r.store.nodes) :
    fileOf r.store n.id = if n.vname.path = "" then none else some n.vname.path := by
  unfold fileOf
  rw [show r.store.nodes.find? n.id = some n from Relational.Table.find?_of_mem hn, Option.map_some]
  split_ifs with h
  · exact Option.filter_some_neg (by simpa using h)
  · exact Option.filter_some_pos (by simpa using h)

/-- While the seeds are taken up. -/
structure Seeded (r : Reader) (ids : List NodeId) (st : Radius) : Prop where
  halted : st.halted = false
  queue : st.queue = st.visited
  order : st.affectedOrder = filesOf r.store st.visited
  nodup : st.visited.Nodup
  mem : ∀ x, x ∈ st.visited ↔ x ∈ ids
  done : st.phase2Done = []
  resolved : st.resolvedImports = []

theorem Seeded.seedNode {ids : List NodeId} (h : Seeded r ids st) {n : NodeRow}
    (hn : n ∈ r.store.nodes) : Seeded r (ids ++ [n.id]) (seedNode st n) := by
  have hfile := fileOf_row hn
  have hvisit : (visit n.id st).affectedOrder = st.affectedOrder := by
    unfold visit
    split_ifs <;> rfl
  have horder : (Mcp.seedNode st n).affectedOrder = noteFile r.store st.affectedOrder n.id := by
    unfold Mcp.seedNode noteFile
    dsimp only
    rw [hfile, hvisit]
    by_cases hempty : n.vname.path = ""
    · rw [if_pos (.inl hempty), if_pos hempty]
      exact hvisit
    · rw [if_neg hempty]
      dsimp only
      by_cases hmem : n.vname.path ∈ st.affectedOrder
      · rw [if_pos (.inr hmem), if_pos hmem]
        exact hvisit
      · rw [if_neg (not_or.mpr ⟨hempty, hmem⟩), if_neg hmem]
  have hrest : (Mcp.seedNode st n).halted = (visit n.id st).halted ∧
      (Mcp.seedNode st n).queue = (visit n.id st).queue ∧
      (Mcp.seedNode st n).visited = (visit n.id st).visited ∧
      (Mcp.seedNode st n).phase2Done = (visit n.id st).phase2Done ∧
      (Mcp.seedNode st n).resolvedImports = (visit n.id st).resolvedImports := by
    unfold Mcp.seedNode
    dsimp only
    split_ifs <;> exact ⟨rfl, rfl, rfl, rfl, rfl⟩
  obtain ⟨hhalted, hqueue, hvisited, hdone, hresolved⟩ := hrest
  by_cases hmem : n.id ∈ st.visited
  · rw [visit, if_pos hmem] at hhalted hqueue hvisited hdone hresolved
    refine ⟨hhalted.trans h.halted, by rw [hqueue, hvisited, h.queue], ?_, hvisited ▸ h.nodup,
      fun x => ?_, hdone.trans h.done, hresolved.trans h.resolved⟩
    · rw [horder, hvisited, h.order, noteFile_of_mem hmem]
    · rw [hvisited, h.mem, List.mem_append, List.mem_singleton]
      exact ⟨.inl, fun hx => hx.elim id fun heq => heq ▸ (h.mem _).mp hmem⟩
  · rw [visit, if_neg hmem] at hhalted hqueue hvisited hdone hresolved
    refine ⟨hhalted.trans h.halted, by rw [hqueue, hvisited, h.queue], ?_, ?_, fun x => ?_,
      hdone.trans h.done, hresolved.trans h.resolved⟩
    · rw [horder, hvisited, h.order, filesOf_append]
      rfl
    · rw [hvisited]
      exact List.nodup_append.mpr ⟨h.nodup, List.nodup_singleton _, fun a ha b hb hab =>
        hmem (List.mem_singleton.mp hb ▸ hab ▸ ha)⟩
    · rw [hvisited, List.mem_append, h.mem, List.mem_append, List.mem_singleton]

theorem seeded_start {rows : List NodeRow} (hrows : ∀ n ∈ rows, n ∈ r.store.nodes) :
    Seeded r (rows.map NodeRow.id) (Radius.start rows) := by
  have hgen : ∀ (ids : List NodeId) (st : Radius), Seeded r ids st →
      Seeded r (ids ++ rows.map NodeRow.id) (rows.foldl Mcp.seedNode st) := by
    induction rows with
    | nil => exact fun ids st h => by simpa using h
    | cons n rows ih =>
      intro ids st h
      obtain ⟨hn, hrows⟩ := List.forall_mem_cons.mp hrows
      have hnext := ih hrows _ _ (h.seedNode hn)
      rw [List.append_assoc] at hnext
      exact hnext
  exact hgen [] _ ⟨rfl, rfl, rfl, List.nodup_nil, fun x => Iff.rfl, rfl, rfl⟩

theorem Seeded.steady (h : Seeded r seeds st) : Steady r imports seeds st where
  halted := h.halted
  order := h.order
  resolved := fun idx hidx => by
    rw [h.resolved] at hidx
    cases hidx
  kept := by
    refine ⟨1, ?_⟩
    rw [Radius.ledger, h.queue, h.done]
    exact kept_start h.nodup h.mem

def edgeSrcs (s : SqliteStore) : Finset NodeId := (s.edges.rows.map EdgeRow.src).toFinset

def nodePaths (s : SqliteStore) : Finset String :=
  (s.nodes.rows.map fun n => n.vname.path).toFinset

theorem fileOf_mem_nodePaths {x : NodeId} {f : String} (h : fileOf s x = some f) :
    f ∈ nodePaths s := by
  unfold fileOf at h
  obtain ⟨n, hn, rfl⟩ := Option.map_eq_some_iff.mp (Option.filter_eq_some_iff.mp h).1
  exact List.mem_toFinset.mpr (List.mem_map_of_mem (Relational.Table.mem_of_find? hn).1)

theorem Seeded.potential_le {rows : List NodeRow} (h : Seeded r (rows.map NodeRow.id) st)
    (hlen : st.visited.length ≤ rows.length) :
    Alternation.potential (edgeSrcs r.store) (nodePaths r.store) st.ledger ≤ radiusFuel r rows := by
  have hsrcs : (edgeSrcs r.store).card ≤ r.store.edges.rows.length := by
    refine (List.toFinset_card_le _).trans ?_
    rw [List.length_map]
  have hpaths : (nodePaths r.store).card ≤ r.store.nodes.rows.length := by
    refine (List.toFinset_card_le _).trans ?_
    rw [List.length_map]
  have h1 := Finset.card_le_card
    (Finset.sdiff_subset (s := edgeSrcs r.store) (t := st.visited.toFinset))
  have h2 := Finset.card_le_card
    (Finset.sdiff_subset (s := nodePaths r.store) (t := st.phase2Done.toFinset))
  unfold Alternation.potential radiusFuel
  simp only [Radius.ledger, h.queue]
  omega

theorem traverse_spec {rows : List NodeRow} (hrows : ∀ n ∈ rows, n ∈ r.store.nodes)
    (hscan : Scanned r.store imports)
    (hroom : Room r.store limit (Reached r.store (rows.map NodeRow.id)))
    (hmax : ∀ l : List NodeId, l.Nodup → (∀ x ∈ l, Reached r.store (rows.map NodeRow.id) x) →
      l.length < MAX_BLAST_RADIUS_NODES) :
    let st := traverse r imports .treeSitter limit rows
    Steady r imports (rows.map NodeRow.id) st ∧
      radiusStep r imports .treeSitter limit st = none ∧
      ∀ x, x ∈ st.visited ↔ Reached r.store (rows.map NodeRow.id) x := by
  have hstart := seeded_start hrows
  have hlen : (Radius.start rows).visited.length ≤ rows.length := by
    have hsub : (Radius.start rows).visited ⊆ rows.map NodeRow.id := fun x hx => (hstart.mem x).mp hx
    have hle := (List.subperm_of_subset hstart.nodup hsub).length_le
    rwa [List.length_map] at hle
  have hsrc : ∀ {y}, (∃ e, e ∈ r.store.edges ∧ e.src = y) → y ∈ edgeSrcs r.store := by
    rintro y ⟨e, he, rfl⟩
    exact List.mem_toFinset.mpr (List.mem_map_of_mem he)
  obtain ⟨hsteady, hend⟩ := Loop.iterate_halts_of_invariant
    (P := Steady r imports (rows.map NodeRow.id))
    (μ := fun st => Alternation.potential (edgeSrcs r.store) (nodePaths r.store) st.ledger)
    (fun st st' hst hstep => by
      obtain ⟨hst', hturn⟩ := hst.step hroom hscan hstep
      refine ⟨hst', hturn.potential_lt (fun x y hxy => ?_) (fun f y hfy => ?_)
        fun x f hxf => fileOf_mem_nodePaths hxf⟩
      · obtain ⟨e, he, -, hy, -⟩ := hxy
        exact hsrc ⟨e, he, hy⟩
      · obtain ⟨row, -, -, -, e, he, -, hy, -⟩ := hfy
        exact hsrc ⟨e, he, hy⟩)
    (radiusFuel r rows) (Radius.start rows) hstart.steady (hstart.potential_le hlen)
  exact ⟨hsteady, hend, hsteady.visited_iff hmax hend⟩

end Travsr.Mcp
