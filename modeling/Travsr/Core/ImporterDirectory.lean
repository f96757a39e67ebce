import Travsr.Core.RelativeImport

namespace Travsr.Core

open Text StackWalk

/-! ### Splitting at slashes and joining again -/

theorem splitOn_eq_splitOnP (p : Char → Bool) (s : List Char) : splitOn p s = s.splitOnP p := by
  induction s with
  | nil => rfl
  | cons c s ih =>
    rw [splitOn, List.splitOnP_cons_eq_if_modifyHead, ih]
    split_ifs
    · rfl
    · cases hsplit : s.splitOnP p with
      | nil => exact absurd hsplit (List.splitOnP_ne_nil p s)
      | cons w ws => rfl

theorem splitOn_ne_nil (p : Char → Bool) (s : List Char) : splitOn p s ≠ [] := by
  rw [splitOn_eq_splitOnP]
  exact List.splitOnP_ne_nil p s

theorem of_mem_splitOn {p : Char → Bool} {s w : List Char} (hw : w ∈ splitOn p s) :
    ∀ c ∈ w, p c = false ∧ c ∈ s := by
  induction s generalizing w with
  | nil =>
    rw [splitOn, List.mem_singleton] at hw
    subst hw
    simp
  | cons d s ih =>
    rw [splitOn] at hw
    split_ifs at hw with hd
    · rcases List.mem_cons.mp hw with rfl | hw
      · simp
      · intro c hc
        have h := ih hw c hc
        exact ⟨h.1, List.mem_cons_of_mem d h.2⟩
    · cases hsplit : splitOn p s with
      | nil => exact absurd hsplit (splitOn_ne_nil p s)
      | cons v vs =>
        simp only [hsplit, List.mem_cons] at hw
        intro c hc
        rcases hw with rfl | hw
        · rcases List.mem_cons.mp hc with rfl | hc
          · exact ⟨by simpa using hd, List.mem_cons_self ..⟩
          · have h := ih (by rw [hsplit]; exact List.mem_cons_self ..) c hc
            exact ⟨h.1, List.mem_cons_of_mem d h.2⟩
        · have h := ih (by rw [hsplit]; exact List.mem_cons_of_mem v hw) c hc
          exact ⟨h.1, List.mem_cons_of_mem d h.2⟩

theorem splitOn_slashed (s : List Char) : splitOn (· = '/') (slashed s) = splitOn isSeparator s := by
  induction s with
  | nil => rfl
  | cons c s ih =>
    have hcons : slashed (c :: s) = (if c = '\\' then '/' else c) :: slashed s := rfl
    rw [hcons]
    by_cases hback : c = '\\'
    · subst hback
      simp [splitOn, isSeparator, ih]
    · by_cases hslash : c = '/'
      · subst hslash
        simp [splitOn, isSeparator, ih]
      · simp [splitOn, isSeparator, ih, hback, hslash]

theorem slashed_of_not_mem {s : List Char} (h : '\\' ∉ s) : slashed s = s := by
  rw [slashed, List.map_congr_left (g := id), List.map_id]
  intro c hc
  have hne : c ≠ '\\' := fun he => h (he ▸ hc)
  simp [hne]

/-- Pieces without a separator. -/
def SeparatorFree (parts : List (List Char)) : Prop := ∀ w ∈ parts, ∀ c ∈ w, isSeparator c = false

theorem SeparatorFree.slash {parts : List (List Char)} (h : SeparatorFree parts) :
    ∀ w ∈ parts, '/' ∉ w := by
  intro w hw hc
  have hsep := h w hw _ hc
  simp [isSeparator] at hsep

theorem splitOn_joinSlash {parts : List (List Char)} (hne : parts ≠ []) (hfree : SeparatorFree parts) :
    splitOn (· = '/') (joinSlash parts) = parts := by
  have hp : (fun c : Char => decide (c = '/')) = (· == '/') := by
    funext c
    exact (Bool.beq_eq_decide_eq c '/').symm
  rw [splitOn_eq_splitOnP, hp, ← List.splitOn_eq_splitOnP, joinSlash,
    List.splitOn_intercalate '/' hfree.slash hne]

/-- A joined path tells its pieces, except that the empty one may be no piece or an empty one. -/
theorem joinSlash_inj {parts names : List (List Char)} (hparts : SeparatorFree parts)
    (hnames : SeparatorFree names) (hnonempty : names ≠ [[]])
    (h : joinSlash parts = joinSlash names) : parts = names ∨ (parts = [[]] ∧ names = []) := by
  have hroot : splitOn (· = '/') (joinSlash ([] : List (List Char))) = [[]] := rfl
  by_cases hp : parts = []
  · subst hp
    by_cases hn : names = []
    · exact Or.inl hn.symm
    · have hback := splitOn_joinSlash hn hnames
      rw [← h, hroot] at hback
      exact absurd hback.symm hnonempty
  · have hback := splitOn_joinSlash hp hparts
    rw [h] at hback
    by_cases hn : names = []
    · subst hn
      rw [hroot] at hback
      exact Or.inr ⟨hback.symm, rfl⟩
    · rw [splitOn_joinSlash hn hnames] at hback
      exact Or.inl hback.symm

theorem mem_joinSlash {parts : List (List Char)} {c : Char} (h : c ∈ joinSlash parts) :
    c = '/' ∨ ∃ w ∈ parts, c ∈ w := by
  induction parts with
  | nil => simp [joinSlash] at h
  | cons w parts ih =>
    by_cases hnil : parts = []
    · subst hnil
      rw [joinSlash, List.intercalate_singleton] at h
      exact Or.inr ⟨w, List.mem_cons_self .., h⟩
    · rw [joinSlash, List.intercalate_cons_of_ne_nil hnil, List.mem_append, List.mem_append] at h
      rcases h with (hw | hsep) | hrest
      · exact Or.inr ⟨w, List.mem_cons_self .., hw⟩
      · exact Or.inl (by simpa using hsep)
      · rcases ih hrest with hsep | ⟨v, hv, hc⟩
        · exact Or.inl hsep
        · exact Or.inr ⟨v, List.mem_cons_of_mem w hv, hc⟩

theorem slashed_joinSlash {parts : List (List Char)} (h : SeparatorFree parts) :
    slashed (joinSlash parts) = joinSlash parts := by
  apply slashed_of_not_mem
  intro hc
  rcases mem_joinSlash hc with heq | ⟨w, hw, hcw⟩
  · simp at heq
  · have hsep := h w hw _ hcw
    simp [isSeparator] at hsep

/-! ### The importer's directory -/

theorem isNamed_iff {w : List Char} : isNamed w = true ↔ w ≠ [] ∧ w ≠ ['.'] := by
  simp [isNamed]

theorem filter_rdropWhile (body : List (List Char)) :
    (body.rdropWhile fun w => !isNamed w).filter isNamed = body.filter isNamed := by
  induction body using List.reverseRecOn with
  | nil => rfl
  | append_singleton body w ih =>
    by_cases hw : isNamed w = true
    · rw [List.rdropWhile_concat_neg _ _ _ (by simp [hw])]
    · rw [List.rdropWhile_concat_pos _ _ _ (by simp [hw]), ih, List.filter_append]
      simp [hw]

theorem dropComponent_eq_none {body : List (List Char)} :
    dropComponent body = none ↔ body.filter isNamed = [] := by
  rw [dropComponent]
  cases hbody : body.rdropWhile fun w => !isNamed w with
  | nil => simp [← filter_rdropWhile body, hbody]
  | cons w ws =>
    have hlast := List.rdropWhile_last_not (fun w => !isNamed w) body (by rw [hbody]; simp)
    have hmem := List.getLast_mem (l := body.rdropWhile fun w => !isNamed w) (by rw [hbody]; simp)
    have hkept : (body.rdropWhile fun w => !isNamed w).getLast (by rw [hbody]; simp) ∈
        (body.rdropWhile fun w => !isNamed w).filter isNamed := by
      rw [List.mem_filter]
      exact ⟨hmem, by simpa using hlast⟩
    rw [filter_rdropWhile] at hkept
    simp [List.ne_nil_of_mem hkept]

theorem filter_dropComponent {body rest : List (List Char)} (h : dropComponent body = some rest) :
    rest.filter isNamed = (body.filter isNamed).dropLast := by
  rw [dropComponent] at h
  rcases List.eq_nil_or_concat (body.rdropWhile fun w => !isNamed w) with hnil | ⟨init, w, hinit⟩
  · rw [hnil] at h
    simp at h
  · rw [List.concat_eq_append] at hinit
    have hlast := List.rdropWhile_last_not (fun w => !isNamed w) body (by rw [hinit]; simp)
    have hw : isNamed w = true := by simpa [hinit] using hlast
    have hrest : rest = init.rdropWhile fun w => !isNamed w := by
      rw [hinit] at h
      cases hcons : init ++ [w] with
      | nil => simp at hcons
      | cons v vs =>
        rw [hcons] at h
        simp only [Option.some.injEq] at h
        rw [← h, ← hcons, List.dropLast_concat]
    rw [← filter_rdropWhile body, hinit, hrest, filter_rdropWhile, List.filter_append]
    simp [hw]

theorem mem_of_mem_dropComponent {body rest : List (List Char)} {w : List Char}
    (h : dropComponent body = some rest) (hw : w ∈ rest) : w ∈ body := by
  rw [dropComponent] at h
  split at h
  · simp at h
  · next v vs hcons =>
    rw [Option.some.injEq] at h
    rw [← h] at hw
    have hdrop := (List.rdropWhile_prefix _ _).subset hw
    have hin := (List.dropLast_sublist _).subset hdrop
    rw [← hcons] at hin
    exact (List.rdropWhile_prefix _ _).subset hin

theorem filter_parentPieces (pieces : List (List Char)) :
    ((parentPieces pieces).getD []).filter isNamed = (pieces.filter isNamed).dropLast := by
  cases pieces with
  | nil => rfl
  | cons head body =>
    have hempty : isNamed [] = false := rfl
    have hdot : isNamed ['.'] = false := rfl
    rw [parentPieces]
    split_ifs with hroot hcur hall
    · obtain ⟨rfl, -⟩ := hroot
      cases hdrop : dropComponent body with
      | none => simp [hempty, dropComponent_eq_none.mp hdrop]
      | some rest =>
        have hrest := filter_dropComponent hdrop
        by_cases hnil : rest = []
        · subst hnil
          simp [hempty, ← hrest]
        · simp [hempty, hnil, hrest]
    · subst hcur
      have hnone : body.filter isNamed = [] := by
        rw [List.filter_eq_nil_iff]
        intro w hw
        simpa using List.all_eq_true.mp hall w hw
      simp [hempty, hdot, hnone]
    · subst hcur
      cases hdrop : dropComponent body with
      | none => simp [hdot, dropComponent_eq_none.mp hdrop]
      | some rest => simp [hdot, filter_dropComponent hdrop]
    · cases hdrop : dropComponent (head :: body) with
      | none => rw [dropComponent_eq_none.mp hdrop]; rfl
      | some rest =>
        have hrest := filter_dropComponent hdrop
        by_cases hnil : rest = []
        · subst hnil
          simp [hempty, ← hrest]
        · simp [hnil, hrest]

theorem mem_of_mem_parentPieces {pieces : List (List Char)} {w : List Char}
    (hw : w ∈ (parentPieces pieces).getD []) : w = [] ∨ w ∈ pieces := by
  cases pieces with
  | nil => simp [parentPieces] at hw
  | cons head body =>
    rw [parentPieces] at hw
    split_ifs at hw with hroot hcur hall
    · cases hdrop : dropComponent body with
      | none => simp [hdrop] at hw
      | some rest =>
        simp only [hdrop, Option.map_some, Option.getD_some, List.mem_cons] at hw
        rcases hw with rfl | hw
        · exact Or.inl rfl
        · split_ifs at hw
          · exact Or.inl (by simpa using hw)
          · exact Or.inr (List.mem_cons_of_mem _ (mem_of_mem_dropComponent hdrop hw))
    · exact Or.inl (by simpa using hw)
    · cases hdrop : dropComponent body with
      | none => simp [hdrop] at hw
      | some rest =>
        simp only [hdrop, Option.map_some, Option.getD_some, List.mem_cons] at hw
        rcases hw with rfl | hw
        · exact Or.inr (List.mem_cons_self ..)
        · exact Or.inr (List.mem_cons_of_mem _ (mem_of_mem_dropComponent hdrop hw))
    · cases hdrop : dropComponent (head :: body) with
      | none => simp [hdrop] at hw
      | some rest =>
        simp only [hdrop, Option.map_some, Option.getD_some] at hw
        split_ifs at hw
        · exact Or.inl (by simpa using hw)
        · exact Or.inr (mem_of_mem_dropComponent hdrop hw)

theorem parentPieces_ne_nil {pieces : List (List Char)} : parentPieces pieces ≠ some [] := by
  cases pieces with
  | nil => simp [parentPieces]
  | cons head body =>
    rw [parentPieces]
    split_ifs with hroot hcur hall
    · simp
    · simp
    · simp
    · cases dropComponent (head :: body) with
      | none => simp
      | some rest => by_cases hnil : rest = [] <;> simp [hnil]

/-- The importer's directory component by component; a lone `.` counts as none. -/
theorem importerParts_eq (importerPath : List Char) :
    importerParts importerPath =
      match parentPieces (splitOn isSeparator importerPath) with
      | none => []
      | some parts => if parts = [[]] ∨ parts = [['.']] then [] else parts := by
  have hpieces : SeparatorFree ((parentPieces (splitOn isSeparator importerPath)).getD []) := by
    intro w hw
    rcases mem_of_mem_parentPieces hw with rfl | hmem
    · simp
    · exact fun c hc => (of_mem_splitOn hmem c hc).1
  rw [importerParts, fileParentDir, pathParent, splitOn_slashed]
  cases hparts : parentPieces (splitOn isSeparator importerPath) with
  | none => rfl
  | some parts =>
    have hne : parts ≠ [] := fun h => parentPieces_ne_nil (h ▸ hparts)
    rw [hparts, Option.getD_some] at hpieces
    have hsplit := splitOn_joinSlash hne hpieces
    have hslashed := slashed_joinSlash hpieces
    have hempty : joinSlash parts = [] ↔ parts = [[]] := by
      apply Iff.intro
      · intro h
        rw [h] at hsplit
        exact hsplit.symm
      · rintro rfl
        rfl
    have hdot : joinSlash parts = ['.'] ↔ parts = [['.']] := by
      apply Iff.intro
      · intro h
        rw [h] at hsplit
        exact hsplit.symm
      · rintro rfl
        rfl
    by_cases htrivial : parts = [[]] ∨ parts = [['.']]
    · have hfilter : (some (joinSlash parts)).filter (fun d => d ≠ [] ∧ d ≠ ['.']) = none := by
        rcases htrivial with rfl | rfl <;> rfl
      simp only [Option.map_some, hfilter, if_pos htrivial]
      rfl
    · rw [not_or] at htrivial
      have hfilter : (some (joinSlash parts)).filter (fun d => d ≠ [] ∧ d ≠ ['.']) =
          some (joinSlash parts) := by
        simp [Option.filter, hempty, hdot, htrivial]
      simp only [Option.map_some, hfilter, Option.getD_some, hslashed, hempty, hsplit,
        htrivial, or_self, if_false]

theorem filter_importerParts (importerPath : List Char) :
    (importerParts importerPath).filter isNamed = directory importerPath := by
  have hfilter := filter_parentPieces (splitOn isSeparator importerPath)
  rw [importerParts_eq, directory, ← hfilter]
  cases parentPieces (splitOn isSeparator importerPath) with
  | none => rfl
  | some parts =>
    by_cases htrivial : parts = [[]] ∨ parts = [['.']]
    · rw [Option.getD_some]
      simp only [if_pos htrivial]
      rcases htrivial with rfl | rfl <;> rfl
    · simp [htrivial]

theorem separatorFree_splitOn (s : List Char) : SeparatorFree (splitOn isSeparator s) :=
  fun _ hw c hc => (of_mem_splitOn hw c hc).1

theorem separatorFree_importerParts (importerPath : List Char) :
    SeparatorFree (importerParts importerPath) := by
  intro w hw
  rw [importerParts_eq] at hw
  have hin : w ∈ (parentPieces (splitOn isSeparator importerPath)).getD [] := by
    cases hparts : parentPieces (splitOn isSeparator importerPath) with
    | none => simp [hparts] at hw
    | some parts =>
      simp only [hparts] at hw
      split_ifs at hw
      · simp at hw
      · exact hw
  rcases mem_of_mem_parentPieces hin with rfl | hmem
  · simp
  · exact separatorFree_splitOn importerPath w hmem

/-! ### Names and moves -/

theorem segmentMove_of_isName {seg : List Char} (h : IsName seg) : segmentMove seg = .down seg := by
  rw [segmentMove, if_neg (by simp [h.1, h.2.1]), if_neg h.2.2]

theorem isName_of_segmentMove {seg a : List Char} (h : segmentMove seg = .down a) :
    a = seg ∧ IsName seg := by
  rw [segmentMove] at h
  split_ifs at h with hstay hup
  rw [not_or] at hstay
  rw [Move.down.injEq] at h
  exact ⟨h.symm, hstay.1, hstay.2, hup⟩

theorem map_segmentMove {segs : List (List Char)} (h : AllNames segs) :
    segs.map segmentMove = segs.map Move.down :=
  List.map_congr_left fun seg hseg => segmentMove_of_isName (h seg hseg)

theorem allNames_of_map {segs parts : List (List Char)}
    (h : segs.map segmentMove = parts.map Move.down) : AllNames segs := by
  intro seg hseg
  have hmem : segmentMove seg ∈ parts.map Move.down := h ▸ List.mem_map_of_mem hseg
  obtain ⟨a, -, ha⟩ := List.mem_map.mp hmem
  exact (isName_of_segmentMove ha.symm).2

theorem reduce_names {segs : List (List Char)} {w : List Char}
    (h : w ∈ (reduce (segs.map segmentMove)).2) : IsName w ∧ w ∈ segs := by
  obtain ⟨seg, hseg, hmove⟩ := List.mem_map.mp (down_mem_of_mem_reduce h)
  obtain ⟨rfl, hname⟩ := isName_of_segmentMove hmove
  exact ⟨hname, hseg⟩

theorem reduce_filter (segs : List (List Char)) (moves : List (Move (List Char))) :
    reduce ((segs.filter isNamed).map segmentMove ++ moves) =
      reduce (segs.map segmentMove ++ moves) := by
  induction segs with
  | nil => rfl
  | cons seg segs ih =>
    by_cases hnamed : isNamed seg = true
    · rw [List.filter_cons_of_pos hnamed]
      simp only [List.map_cons, List.cons_append]
      cases segmentMove seg <;> simp only [reduce, ih]
    · have hstay : segmentMove seg = .stay := by
        rw [segmentMove, if_pos]
        rw [isNamed_iff] at hnamed
        tauto
      rw [List.filter_cons_of_neg hnamed, ih, List.map_cons, List.cons_append, hstay, reduce]

theorem lexical_eq (importerPath spec : List Char) :
    lexical importerPath spec =
      (walk [] ((importerParts importerPath).map segmentMove)).bind fun parts =>
        walk parts ((splitOn isSeparator spec).map segmentMove) := by
  rw [lexical, ← filter_importerParts, List.map_append, reduce_filter, ← walk_empty, walk_append]

theorem resolve_eq (importerPath spec : List Char) :
    resolveRelativeToImporter importerPath spec =
      (walk (importerParts importerPath) ((splitOn isSeparator spec).map segmentMove)).map
        joinSlash := by
  rw [resolveRelativeToImporter, splitOn_slashed]

end Travsr.Core
