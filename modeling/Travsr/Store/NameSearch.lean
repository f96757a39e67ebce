import Travsr.Store.SymbolFrequency

namespace Travsr.Store

open Travsr.Core Core.Text

/-! ### The search of nodes by name -/

def NODE_NAME_SEARCH_LIMIT : Nat := 100

/-- `NAME_MATCH_BOUNDARY`; the name is a pattern here, not escaped. -/
def nameMatchBoundary (name : String) (r : NodeRow) : Bool :=
  let n := name.toList
  let signature := r.vname.signature
  let path := r.vname.path
  signature = name ||
    like (n ++ [':', '%']) signature.toList ||
    like (['%', ':'] ++ n) signature.toList ||
    like (['%', ':'] ++ n ++ [':', '%']) signature.toList ||
    like (n ++ ['%']) signature.toList ||
    path = name ||
    like (['%', '/'] ++ n) path.toList

def nameTier (name : String) (r : NodeRow) : Nat :=
  let n := name.toList
  let escaped := escapeLike n
  let signature := r.vname.signature
  let path := r.vname.path
  if signature = name then 0
  else if r.kind = "file" ∧ path = name then 0
  else if like (n ++ [':', '%']) signature.toList ∨ like (['%', ':'] ++ n) signature.toList ∨
      like (['%', ':'] ++ n ++ [':', '%']) signature.toList then 10
  else if likeEscape (['%', '.'] ++ escaped) signature.toList ∨
      likeEscape (['%', '#'] ++ escaped) signature.toList then 11
  else if like (n ++ ['%']) signature.toList then 20
  else if path = name then 5
  else if like (['%', '/'] ++ n) path.toList then 15
  else 40

def likeAny (patterns : List String) (text : String) : Bool :=
  patterns.any fun p => like p.toList text.toList

def testBias (path : String) : Nat :=
  if likeAny ["%_test.go", "%test/%", "%.test.%", "%_test.%", "tests/%", "%/tests/%"] path then 25
  else 0

def vendorBias (path : String) : Nat :=
  if likeAny ["third_party/%", "vendor/%", "%/node_modules/%"] path then 50 else 0

def generatedBias (path : String) : Nat :=
  if likeAny ["%zz_generated%", "%.pb.go", "%_pb2.py", "%.pb.cc", "%.pb.h", "%.generated.%",
    "%.g.dart", "%mock%", "%fake%"] path then 20 else 0

def kindBias (kind : String) : Nat :=
  if kind ∈ ["method", "function", "constructor"] then 0
  else if kind ∈ ["class", "interface", "struct", "enum", "trait", "union"] then 2
  else if kind ∈ ["constant", "static"] then 3
  else if kind ∈ ["impl", "type", "module"] then 4
  else if kind ∈ ["field", "var", "variable", "property"] then 6
  else if kind ∈ ["import", "file-module", "crate"] then 8
  else if kind = "go-pkg" then 10
  else 4

/-- `NAME_SEARCH_SELECT`'s rank. -/
def nameRank (name : String) (r : NodeRow) : Nat :=
  nameTier name r + testBias r.vname.path + vendorBias r.vname.path + generatedBias r.vname.path +
    r.vname.path.length / 32 + kindBias r.kind

/-- `ORDER BY rank ASC, path ASC, signature ASC, id ASC`. -/
def nameOrder (name : String) (a b : NodeRow) : Bool :=
  ((compare (nameRank name a) (nameRank name b)).then
    ((compare a.vname.path b.vname.path).then
      ((compare a.vname.signature b.vname.signature).then
        (compare (toI64 a.id) (toI64 b.id))))).isLE

/-- `run_name_search`; documentation nodes are never found. -/
def runNameSearch (s : SqliteStore) (clause : NodeRow → Bool) (name : String)
    (lang : Option String) : List NodeRow :=
  ((s.nodes.rows.filter fun r =>
      clause r ∧ r.kind ≠ "doc-chunk" ∧ lang.all (· = r.vname.language)).insertionSort
    fun a b => nameOrder name a b = true).take NODE_NAME_SEARCH_LIMIT

def searchNodesByNameExact (s : SqliteStore) (name : String) : List NodeRow :=
  runNameSearch s (nameMatchBoundary name) name none

variable {s : SqliteStore} {name : String}

theorem searchNodesByNameExact_ne_nil :
    searchNodesByNameExact s name ≠ [] ↔
      ∃ r ∈ s.nodes.rows, nameMatchBoundary name r = true ∧ r.kind ≠ "doc-chunk" := by
  unfold searchNodesByNameExact runNameSearch
  have htake : ∀ l : List NodeRow, l.take NODE_NAME_SEARCH_LIMIT ≠ [] ↔ l ≠ [] := by
    intro l
    simp [NODE_NAME_SEARCH_LIMIT]
  have hperm := List.perm_insertionSort (fun a b => nameOrder name a b = true)
    (s.nodes.rows.filter fun r =>
      nameMatchBoundary name r ∧ r.kind ≠ "doc-chunk" ∧ (none : Option String).all (· = r.vname.language))
  rw [htake]
  rw [← List.length_pos_iff, hperm.length_eq, List.length_pos_iff_exists_mem]
  simp [List.mem_filter]

/-! ### `LIKE` with a name in it -/

/-- Equal up to the case of ASCII letters, where an underscore of the first stands for any
character. -/
def Alike (p u : List Char) : Prop := List.Forall₂ (fun a b => a = '_' ∨ a.toLower = b.toLower) p u

variable {p q cs : List Char}

theorem like_percent : like ('%' :: p) cs = true ↔ ∃ u v, cs = u ++ v ∧ like p v = true := by
  have hunfold : like ('%' :: p) cs = cs.tails.any (like p) := by
    cases cs <;> rfl
  rw [hunfold, List.any_eq_true]
  constructor
  · rintro ⟨v, hv, hlike⟩
    obtain ⟨u, hu⟩ := (List.mem_tails _ _).mp hv
    exact ⟨u, v, hu.symm, hlike⟩
  · rintro ⟨u, v, rfl, hlike⟩
    exact ⟨v, (List.mem_tails _ _).mpr (List.suffix_append u v), hlike⟩

theorem like_cons {c : Char} (hc : c ≠ '%') : like (c :: p) cs = true ↔
    ∃ d ds, cs = d :: ds ∧ (c = '_' ∨ c.toLower = d.toLower) ∧ like p ds = true := by
  rw [like.eq_def]
  simp only [if_neg hc]
  cases cs with
  | nil => simp
  | cons d ds => simp

/-- A pattern behind a text without `%`. -/
theorem like_append (h : '%' ∉ p) : like (p ++ q) cs = true ↔
    ∃ u v, cs = u ++ v ∧ Alike p u ∧ like q v = true := by
  induction p generalizing cs with
  | nil =>
    constructor
    · exact fun hlike => ⟨[], cs, rfl, List.Forall₂.nil, hlike⟩
    · rintro ⟨u, v, rfl, hu, hlike⟩
      cases hu
      exact hlike
  | cons c p ih =>
    have hc : c ≠ '%' := fun he => h (he ▸ List.mem_cons_self ..)
    have hp : '%' ∉ p := fun he => h (List.mem_cons_of_mem c he)
    rw [List.cons_append, like_cons hc]
    constructor
    · rintro ⟨d, ds, rfl, hd, hlike⟩
      obtain ⟨u, v, rfl, hu, hv⟩ := (ih hp).mp hlike
      exact ⟨d :: u, v, rfl, List.Forall₂.cons hd hu, hv⟩
    · rintro ⟨u, v, rfl, hu, hv⟩
      cases hu with
      | cons hd hu => exact ⟨_, _, rfl, hd, (ih hp).mpr ⟨_, v, rfl, hu, hv⟩⟩

theorem like_nil : like [] cs = true ↔ cs = [] := List.isEmpty_iff

/-- A text without `%` matches what is alike. -/
theorem like_plain (h : '%' ∉ p) : like p cs = true ↔ Alike p cs := by
  have happend : like (p ++ []) cs = true ↔ ∃ u v, cs = u ++ v ∧ Alike p u ∧ like [] v = true :=
    like_append h
  rw [List.append_nil] at happend
  rw [happend]
  constructor
  · rintro ⟨u, v, rfl, hu, hv⟩
    rwa [like_nil.mp hv, List.append_nil]
  · exact fun hu => ⟨cs, [], by simp, hu, rfl⟩

theorem like_prefix (h : '%' ∉ p) : like (p ++ ['%']) cs = true ↔ ∃ u v, cs = u ++ v ∧ Alike p u := by
  rw [like_append h]
  have hany : ∀ v, like ['%'] v = true := fun v =>
    like_percent.mpr ⟨v, [], (List.append_nil v).symm, rfl⟩
  simp [hany]

theorem toLower_separator {c d : Char} (hc : c = ':' ∨ c = '/') : c.toLower = d.toLower ↔ c = d := by
  refine ⟨fun h => ?_, fun h => congrArg Char.toLower h⟩
  have hself : c.toLower = c := by rcases hc with rfl | rfl <;> decide
  rcases toLower_cases d with hd | ⟨hlo, hhi, hn⟩
  · rw [← hself, h, hd]
  · have hnum : d.toLower.toNat = c.toNat := by rw [← h, hself]
    have hsmall : c.toNat < 65 := by rcases hc with rfl | rfl <;> decide
    omega

theorem like_separator {c : Char} (hc : c = ':' ∨ c = '/') :
    like (c :: p) cs = true ↔ ∃ ds, cs = c :: ds ∧ like p ds = true := by
  have hne : c ≠ '%' ∧ c ≠ '_' := by rcases hc with rfl | rfl <;> decide
  rw [like_cons hne.1]
  constructor
  · rintro ⟨d, ds, rfl, hd, hlike⟩
    have heq := (toLower_separator hc).mp (hd.resolve_left hne.2)
    exact ⟨ds, by rw [heq], hlike⟩
  · rintro ⟨ds, rfl, hlike⟩
    exact ⟨c, ds, rfl, Or.inr rfl, hlike⟩

theorem like_behind {c : Char} (hc : c = ':' ∨ c = '/') :
    like ('%' :: c :: p) cs = true ↔ ∃ x ds, cs = x ++ c :: ds ∧ like p ds = true := by
  rw [like_percent]
  constructor
  · rintro ⟨x, v, rfl, hlike⟩
    obtain ⟨ds, rfl, hds⟩ := (like_separator hc).mp hlike
    exact ⟨x, ds, rfl, hds⟩
  · rintro ⟨x, ds, rfl, hlike⟩
    exact ⟨x, c :: ds, rfl, (like_separator hc).mpr ⟨ds, rfl, hlike⟩⟩

theorem alike_refl (p : List Char) : Alike p p :=
  List.forall₂_same.mpr fun _ _ => Or.inr rfl

/-- What the search finds a row by: the name, up to alikeness, at the start of its signature, behind
a colon up to the next colon or the end, or as its path or the tail of its path. -/
def NamedAlike (name : String) (r : NodeRow) : Prop :=
  (∃ u v, r.vname.signature.toList = u ++ v ∧ Alike name.toList u) ∨
    (∃ x u, r.vname.signature.toList = x ++ ':' :: u ∧ Alike name.toList u) ∨
    (∃ x u v, r.vname.signature.toList = x ++ ':' :: (u ++ ':' :: v) ∧ Alike name.toList u) ∨
    r.vname.path = name ∨
    (∃ x u, r.vname.path.toList = x ++ '/' :: u ∧ Alike name.toList u)

theorem nameMatchBoundary_iff {r : NodeRow} (h : '%' ∉ name.toList) :
    nameMatchBoundary name r = true ↔ NamedAlike name r := by
  have hcolon : ∀ cs : List Char, like [':', '%'] cs = true ↔ ∃ v, cs = ':' :: v := by
    intro cs
    have hany : ∀ v, like ['%'] v = true := fun v =>
      like_percent.mpr ⟨v, [], (List.append_nil v).symm, rfl⟩
    rw [like_separator (Or.inl rfl)]
    simp [hany]
  have hexact : r.vname.signature = name →
      ∃ u v, r.vname.signature.toList = u ++ v ∧ Alike name.toList u := by
    rintro rfl
    exact ⟨_, [], (List.append_nil _).symm, alike_refl _⟩
  have hhead : like (name.toList ++ [':', '%']) r.vname.signature.toList = true →
      ∃ u v, r.vname.signature.toList = u ++ v ∧ Alike name.toList u := by
    intro hlike
    obtain ⟨u, v, heq, hu, -⟩ := (like_append h).mp hlike
    exact ⟨u, v, heq, hu⟩
  have htail : ∀ cs, like (['%', ':'] ++ name.toList) cs = true ↔
      ∃ x u, cs = x ++ ':' :: u ∧ Alike name.toList u := by
    intro cs
    simp only [List.cons_append, List.nil_append, like_behind (Or.inl rfl), like_plain h]
  have hinner : ∀ cs, like (['%', ':'] ++ name.toList ++ [':', '%']) cs = true ↔
      ∃ x u v, cs = x ++ ':' :: (u ++ ':' :: v) ∧ Alike name.toList u := by
    intro cs
    simp only [List.cons_append, List.nil_append, like_behind (Or.inl rfl), like_append h, hcolon]
    constructor
    · rintro ⟨x, ds, rfl, u, v, rfl, hu, w, rfl⟩
      exact ⟨x, u, w, rfl, hu⟩
    · rintro ⟨x, u, v, rfl, hu⟩
      exact ⟨x, _, rfl, u, _, rfl, hu, v, rfl⟩
  have hpath : ∀ cs, like (['%', '/'] ++ name.toList) cs = true ↔
      ∃ x u, cs = x ++ '/' :: u ∧ Alike name.toList u := by
    intro cs
    simp only [List.cons_append, List.nil_append, like_behind (Or.inr rfl), like_plain h]
  unfold nameMatchBoundary NamedAlike
  simp only [Bool.or_eq_true, decide_eq_true_eq, htail, hinner, hpath, like_prefix h]
  constructor
  · rintro ((((((hsame | hfirst) | hlast) | hmiddle) | hstart) | hwhole) | hrest)
    · exact Or.inl (hexact hsame)
    · exact Or.inl (hhead hfirst)
    · exact Or.inr (Or.inl hlast)
    · exact Or.inr (Or.inr (Or.inl hmiddle))
    · exact Or.inl hstart
    · exact Or.inr (Or.inr (Or.inr (Or.inl hwhole)))
    · exact Or.inr (Or.inr (Or.inr (Or.inr hrest)))
  · rintro (hstart | hlast | hmiddle | hwhole | hrest)
    · exact Or.inl (Or.inl (Or.inr hstart))
    · exact Or.inl (Or.inl (Or.inl (Or.inl (Or.inr hlast))))
    · exact Or.inl (Or.inl (Or.inl (Or.inr hmiddle)))
    · exact Or.inl (Or.inr hwhole)
    · exact Or.inr hrest

end Travsr.Store
