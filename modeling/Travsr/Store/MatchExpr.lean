import Travsr.Core.Ascii
import Travsr.Lib.Fts5
import Travsr.Store.Lexical

namespace Travsr.Store

open Travsr.Core Core.Text Core.Ident Travsr.Lib

/-! ### `seed_lexicon` -/

def stopwords : List String :=
  ["about", "and", "any", "are", "can", "did", "does", "find", "for", "from", "give", "how",
    "into", "its", "our", "please", "runs", "show", "tell", "that", "the", "then", "this", "uses",
    "using", "was", "were", "what", "when", "where", "which", "who", "whose", "why", "with",
    "works"]

def synonyms : List (String × List String) :=
  [("auth", ["rbac", "session", "login", "token"]),
    ("config", ["settings", "options", "cfg"]),
    ("database", ["sqlite", "store", "storage"]),
    ("delete", ["remove", "retract", "drop"]),
    ("error", ["err", "failure", "panic"]),
    ("remove", ["delete", "retract"]),
    ("store", ["database", "sqlite", "storage"]),
    ("traversal", ["bfs", "ppr", "pagerank", "walk"])]

/-- `is_stopword`: the source searches the sorted table by halving. -/
def isStopword (tok : String) : Bool := decide (tok ∈ stopwords)

def synonymsFor (term : String) : List String :=
  ((synonyms.find? (fun e => e.1 = term)).map Prod.snd).getD []

/-- A row of `fts_synonyms`. -/
structure SynonymRow where
  term : String
  aliasWord : String

def aliasesOf (table : List SynonymRow) (term : String) : List String :=
  (table.filter (fun row => row.term = term)).map SynonymRow.aliasWord

def pushToken (out : List String) (s : String) : List String :=
  if 3 ≤ byteLen s ∧ s ∉ out then out ++ [s] else out

def contentTokens (raw : List String) : List String := raw.filter (fun t => !isStopword t)

/-- The words that are no stopwords, then their aliases; the raw tokens when that is nothing. -/
def expandWith (aliases : String → List String) (raw : List String) : List String :=
  let content := contentTokens raw
  let out := (content.flatMap aliases).foldl pushToken (content.foldl pushToken [])
  if out.isEmpty then raw.foldl pushToken [] else out

def expandTokens (raw : List String) : List String := expandWith synonymsFor raw

def expandTokensDb (table : List SynonymRow) (raw : List String) : List String :=
  expandWith (aliasesOf table) raw

/-! ### `fts_tokenize` -/

def rawTokens (query : String) : List String := splitWhitespace (tokenizeIdentifier query)

def matchText (tokens : List String) : String :=
  joinWith " OR " (tokens.map fun t => "\"" ++ t ++ "\"")

def buildMatchExpr (query : String) : Option String :=
  if (tokenizeIdentifier query).isEmpty then none
  else
    let expr := matchText (rawTokens query)
    if expr.isEmpty then none else some expr

/-- The body of `build_fuzzy_match_expr` and of its variant over the table. -/
def buildFuzzyWith (expand : List String → List String) (query : String) : Option String :=
  if (tokenizeIdentifier query).isEmpty then none
  else
    let union := expand (rawTokens query)
    if union.isEmpty then none
    else
      let expr := matchText union
      if expr.isEmpty then none else some expr

def buildFuzzyMatchExpr (query : String) : Option String := buildFuzzyWith expandTokens query

def buildFuzzyMatchExprDb (table : List SynonymRow) (query : String) : Option String :=
  buildFuzzyWith (expandTokensDb table) query

/-- Whatever expression comes out is read as string literals with just these contents. -/
def WellFormedFor (union : List String) (expr : Option String) : Prop :=
  ∀ e, expr = some e → Fts5.readDisjunction e.toList = some (union.map String.toList)

/-- A query whose own characters cannot break out of the quotes: it holds neither a quote nor a
NUL, or it is not added to its segments as a token of its own (it has whitespace, is too short or
has 64 segments before it). -/
def PlainQuery (query : String) : Prop :=
  Fts5.Plain query.toList ∨ query.toList.any isWhitespace = true ∨ byteLen query < 3 ∨
    64 ≤ ((segments query).filter (3 ≤ byteLen ·)).length

/-- The aliases of the query's own words that are long enough to be searched. -/
def PlainAliases (aliases : String → List String) (query : String) : Prop :=
  ∀ t ∈ contentTokens (rawTokens query), ∀ a ∈ aliases t, 3 ≤ byteLen a → Fts5.Plain a.toList

/-! ### The tokens of a query -/

def longSegments (s : String) : List String := (segments s).filter (3 ≤ byteLen ·)

def wholeToken (s : String) : List String :=
  if 3 ≤ byteLen s ∧ s.toList.any isWhitespace = false ∧ toAsciiLowercase s ∉ segments s then
    [toAsciiLowercase s]
  else []

theorem any_isWhitespace_toAsciiLowercase (s : String) :
    (toAsciiLowercase s).toList.any isWhitespace = s.toList.any isWhitespace := by
  rw [toList_toAsciiLowercase, List.any_map]
  exact congrArg _ (funext isWhitespace_toLower)

theorem tokenizeIdentifier_eq (s : String) :
    tokenizeIdentifier s = joinWith " " ((longSegments s ++ wholeToken s).take 64) := by
  have hfilter : (if 3 ≤ byteLen (toAsciiLowercase s) ∧
        !(toAsciiLowercase s).toList.any isWhitespace ∧ toAsciiLowercase s ∉ segments s then
          segments s ++ [toAsciiLowercase s] else segments s).filter (3 ≤ byteLen ·) =
      longSegments s ++ wholeToken s := by
    rw [byteLen_toAsciiLowercase, any_isWhitespace_toAsciiLowercase]
    unfold wholeToken
    split
    case isTrue h =>
      have hlen : 3 ≤ byteLen (toAsciiLowercase s) := by
        rw [byteLen_toAsciiLowercase]
        exact h.1
      rw [if_pos (by simpa using h), List.filter_append, List.filter_singleton]
      simp [longSegments, hlen]
    case isFalse h =>
      rw [if_neg (by simpa using h), List.append_nil]
      rfl
  have hnodup : (longSegments s ++ wholeToken s).Nodup := by
    rw [List.nodup_append]
    refine ⟨(segments_nodup s).filter _, ?_, fun a ha b hb hab => ?_⟩
    · unfold wholeToken
      split <;> simp
    · unfold wholeToken at hb
      split at hb
      case isTrue h =>
        rw [List.mem_singleton.mp hb] at hab
        exact h.2.2 (hab ▸ (List.mem_filter.mp ha).1)
      case isFalse => cases hb
  unfold tokenizeIdentifier
  simp only [hfilter]
  rw [List.destutter_of_isChain _ _ (List.Pairwise.isChain hnodup)]

theorem unbroken_of_long {t : String} (h : Word t.toList) (hlen : 3 ≤ byteLen t) :
    Unbroken t.toList := by
  constructor
  · intro hnil
    have hempty : t = "" := String.toList_eq_nil_iff.mp hnil
    rw [hempty] at hlen
    exact absurd hlen (by decide)
  · exact fun c hc => not_isWhitespace_of_isAlphanum (h c hc)

theorem rawTokens_eq (s : String) : rawTokens s = (longSegments s ++ wholeToken s).take 64 := by
  rw [rawTokens, tokenizeIdentifier_eq]
  apply splitWhitespace_joinWith
  intro t ht
  rcases List.mem_append.mp (List.mem_of_mem_take ht) with hseg | hwhole
  · obtain ⟨hmem, hlen⟩ := List.mem_filter.mp hseg
    exact unbroken_of_long (word_segments hmem) (by simpa using hlen)
  · unfold wholeToken at hwhole
    split at hwhole
    case isFalse => cases hwhole
    case isTrue h =>
      rw [List.mem_singleton.mp hwhole]
      constructor
      · intro hnil
        have hzero := byteLen_toAsciiLowercase s
        rw [String.toList_eq_nil_iff.mp hnil] at hzero
        have hlen := h.1
        rw [← hzero] at hlen
        exact absurd hlen (by decide)
      · have hany := any_isWhitespace_toAsciiLowercase s
        rw [h.2.1] at hany
        simpa using hany

theorem three_le_byteLen_rawTokens {s t : String} (ht : t ∈ rawTokens s) : 3 ≤ byteLen t := by
  rw [rawTokens_eq] at ht
  rcases List.mem_append.mp (List.mem_of_mem_take ht) with hseg | hwhole
  · simpa using (List.mem_filter.mp hseg).2
  · unfold wholeToken at hwhole
    split at hwhole
    case isFalse => cases hwhole
    case isTrue h =>
      rw [List.mem_singleton.mp hwhole, byteLen_toAsciiLowercase]
      exact h.1

theorem plain_of_word {w : List Char} (h : Word w) : Fts5.Plain w :=
  ⟨fun hm => absurd (h _ hm) (by decide), fun hm => absurd (h _ hm) (by decide)⟩

theorem plain_toAsciiLowercase (s : String) :
    Fts5.Plain (toAsciiLowercase s).toList ↔ Fts5.Plain s.toList := by
  have hmem : ∀ d : Char, d.toNat < 65 →
      (d ∈ (toAsciiLowercase s).toList ↔ d ∈ s.toList) := by
    intro d hd
    simp only [toList_toAsciiLowercase, List.mem_map, toLower_eq_iff hd, exists_eq_right]
  rw [Fts5.Plain, Fts5.Plain, hmem _ (by decide), hmem _ (by decide)]

theorem plain_rawTokens_iff (query : String) :
    (∀ t ∈ rawTokens query, Fts5.Plain t.toList) ↔ PlainQuery query := by
  have hseg : ∀ t ∈ longSegments query, Fts5.Plain t.toList :=
    fun t ht => plain_of_word (word_segments (List.mem_filter.mp ht).1)
  rw [rawTokens_eq]
  constructor
  · intro h
    by_contra hno
    simp only [PlainQuery, not_or, Bool.not_eq_true, Nat.not_lt, Nat.not_le] at hno
    obtain ⟨hplain, hws, hlen, hfew⟩ := hno
    rw [← plain_toAsciiLowercase] at hplain
    have hnew : toAsciiLowercase query ∉ segments query :=
      fun hm => hplain (plain_of_word (word_segments hm))
    have hwhole : wholeToken query = [toAsciiLowercase query] := if_pos ⟨hlen, hws, hnew⟩
    apply hplain
    apply h
    have hall : (longSegments query ++ wholeToken query).length ≤ 64 := by
      rw [hwhole, List.length_append, List.length_singleton]
      exact hfew
    rw [List.take_of_length_le hall, hwhole]
    simp
  · intro h t ht
    rcases List.mem_append.mp (List.mem_of_mem_take ht) with hs | hwhole
    · exact hseg t hs
    · unfold wholeToken at hwhole
      split at hwhole
      case isFalse => cases hwhole
      case isTrue hw =>
        have ht' := List.mem_singleton.mp hwhole
        rcases h with hplain | hws | hlen | hmany
        · rw [ht']
          exact (plain_toAsciiLowercase query).mpr hplain
        · rw [hw.2.1] at hws
          cases hws
        · omega
        · have hfull : 64 ≤ (longSegments query).length := hmany
          rw [List.take_append_of_le_length hfull] at ht
          exact hseg t (List.mem_of_mem_take ht)

/-! ### The union of the tokens and their aliases -/

theorem mem_foldl_pushToken (l out : List String) (t : String) :
    t ∈ l.foldl pushToken out ↔ t ∈ out ∨ (t ∈ l ∧ 3 ≤ byteLen t) := by
  induction l generalizing out with
  | nil => simp
  | cons s l ih =>
    rw [List.foldl_cons, ih, pushToken]
    split
    case isTrue h =>
      simp only [List.mem_append, List.mem_cons, List.not_mem_nil, or_false]
      constructor
      · rintro ((ho | rfl) | hl)
        · exact .inl ho
        · exact .inr ⟨.inl rfl, h.1⟩
        · exact .inr ⟨.inr hl.1, hl.2⟩
      · rintro (ho | ⟨rfl | hl, hlen⟩)
        · exact .inl (.inl ho)
        · exact .inl (.inr rfl)
        · exact .inr ⟨hl, hlen⟩
    case isFalse h =>
      simp only [List.mem_cons]
      constructor
      · rintro (ho | hl)
        · exact .inl ho
        · exact .inr ⟨.inr hl.1, hl.2⟩
      · rintro (ho | ⟨rfl | hl, hlen⟩)
        · exact .inl ho
        · exact .inl (by_contra fun hm => h ⟨hlen, hm⟩)
        · exact .inr ⟨hl, hlen⟩

theorem mem_expandWith {aliases : String → List String} {raw : List String} {t : String}
    (ht : t ∈ expandWith aliases raw) :
    t ∈ raw ∨ ∃ c ∈ contentTokens raw, t ∈ aliases c ∧ 3 ≤ byteLen t := by
  unfold expandWith at ht
  simp only at ht
  split at ht
  · rcases (mem_foldl_pushToken raw [] t).mp ht with h | h
    · cases h
    · exact .inl h.1
  · rcases (mem_foldl_pushToken _ _ t).mp ht with h | ⟨h, hlen⟩
    · rcases (mem_foldl_pushToken _ [] t).mp h with h | h
      · cases h
      · exact .inl (List.mem_of_mem_filter h.1)
    · obtain ⟨c, hc, ha⟩ := List.mem_flatMap.mp h
      exact .inr ⟨c, hc, ha, hlen⟩

theorem mem_expandWith_of_content {aliases : String → List String} {raw : List String}
    {t c : String} (hc : c ∈ contentTokens raw) (ht : t = c ∨ t ∈ aliases c)
    (hlen : 3 ≤ byteLen t) : t ∈ expandWith aliases raw := by
  have hout : t ∈ ((contentTokens raw).flatMap aliases).foldl pushToken
      ((contentTokens raw).foldl pushToken []) := by
    rw [mem_foldl_pushToken, mem_foldl_pushToken]
    rcases ht with rfl | ha
    · exact .inl (.inr ⟨hc, hlen⟩)
    · exact .inr ⟨List.mem_flatMap.mpr ⟨c, hc, ha⟩, hlen⟩
  unfold expandWith
  rw [if_neg]
  · exact hout
  · intro hempty
    rw [List.isEmpty_iff.mp hempty] at hout
    cases hout

theorem plain_of_mem_stopwords {t : String} (h : isStopword t = true) : Fts5.Plain t.toList := by
  have hall : stopwords.all (fun w => w.toList.all Char.isAlphanum) = true := by decide +kernel
  exact plain_of_word
    (List.all_eq_true.mp (List.all_eq_true.mp hall t (of_decide_eq_true h)))

theorem plain_expandWith_iff (aliases : String → List String) (query : String) :
    (∀ t ∈ expandWith aliases (rawTokens query), Fts5.Plain t.toList) ↔
      PlainQuery query ∧ PlainAliases aliases query := by
  rw [← plain_rawTokens_iff]
  constructor
  · intro h
    constructor
    · intro t ht
      by_cases hstop : isStopword t = true
      · exact plain_of_mem_stopwords hstop
      · have hc : t ∈ contentTokens (rawTokens query) :=
          List.mem_filter.mpr ⟨ht, by simpa using hstop⟩
        exact h t (mem_expandWith_of_content hc (.inl rfl) (three_le_byteLen_rawTokens ht))
    · exact fun c hc a ha hlen => h a (mem_expandWith_of_content hc (.inr ha) hlen)
  · intro h t ht
    rcases mem_expandWith ht with hraw | ⟨c, hc, ha, hlen⟩
    · exact h.1 t hraw
    · exact h.2 c hc t ha hlen

theorem plainAliases_synonymsFor (query : String) : PlainAliases synonymsFor query := by
  have hall : synonyms.all (fun e => e.2.all fun a => a.toList.all Char.isAlphanum) = true := by
    decide +kernel
  intro t ht a ha hlen
  unfold synonymsFor at ha
  cases hf : synonyms.find? (fun e => e.1 = t) with
  | none => simp [hf] at ha
  | some e =>
    rw [hf] at ha
    have he := List.all_eq_true.mp hall e (List.mem_of_find?_eq_some hf)
    exact plain_of_word (List.all_eq_true.mp (List.all_eq_true.mp he a ha))

/-! ### The expressions -/

theorem toList_matchText (tokens : List String) :
    (matchText tokens).toList = Fts5.quoteJoin (tokens.map String.toList) := by
  rw [matchText, joinWith, String.toList_intercalate, Fts5.quoteJoin, List.map_map, List.map_map]
  congr 1
  apply List.map_congr_left
  intro t _
  simp [Fts5.quote]

theorem readDisjunction_matchText {tokens : List String} (h : tokens ≠ []) :
    Fts5.readDisjunction (matchText tokens).toList = some (tokens.map String.toList) ↔
      ∀ t ∈ tokens, Fts5.Plain t.toList := by
  rw [toList_matchText, Fts5.readDisjunction_quoteJoin_iff (by simpa using h)]
  simp

theorem matchText_ne_empty {tokens : List String} (h : tokens ≠ []) :
    (matchText tokens).isEmpty = false := by
  have hne : tokens.map String.toList ≠ [] := by simpa using h
  have hlast := Fts5.getLast?_quoteJoin hne
  rw [← toList_matchText] at hlast
  rw [String.isEmpty_eq_false_iff]
  intro he
  rw [he] at hlast
  cases hlast

theorem tokenizeIdentifier_isEmpty (query : String) :
    (tokenizeIdentifier query).isEmpty = true ↔ rawTokens query = [] := by
  rw [String.isEmpty_iff]
  constructor
  · intro he
    rw [rawTokens, he]
    rfl
  · intro hnil
    rw [rawTokens_eq] at hnil
    rw [tokenizeIdentifier_eq, hnil]
    rfl

theorem wellFormedFor_matchText {union : List String} (h : union ≠ []) :
    WellFormedFor union (some (matchText union)) ↔ ∀ t ∈ union, Fts5.Plain t.toList := by
  rw [← readDisjunction_matchText h]
  constructor
  · exact fun hw => hw _ rfl
  · intro hr e he
    rwa [← Option.some.inj he]

theorem wellFormedFor_none {union : List String} : WellFormedFor union none := by
  intro e he
  cases he

theorem buildMatchExpr_wellFormed_iff (query : String) :
    WellFormedFor (rawTokens query) (buildMatchExpr query) ↔
      ∀ t ∈ rawTokens query, Fts5.Plain t.toList := by
  unfold buildMatchExpr
  by_cases hne : rawTokens query = []
  · rw [if_pos ((tokenizeIdentifier_isEmpty query).mpr hne), hne]
    exact ⟨fun _ t ht => by simp at ht, fun _ => wellFormedFor_none⟩
  · rw [if_neg (fun h => hne ((tokenizeIdentifier_isEmpty query).mp h)),
      ← wellFormedFor_matchText hne]
    simp [matchText_ne_empty hne]

theorem buildFuzzyWith_wellFormed_iff (expand : List String → List String)
    (hnil : expand [] = []) (query : String) :
    WellFormedFor (expand (rawTokens query)) (buildFuzzyWith expand query) ↔
      ∀ t ∈ expand (rawTokens query), Fts5.Plain t.toList := by
  unfold buildFuzzyWith
  by_cases hne : rawTokens query = []
  · rw [if_pos ((tokenizeIdentifier_isEmpty query).mpr hne), hne, hnil]
    exact ⟨fun _ t ht => by simp at ht, fun _ => wellFormedFor_none⟩
  · rw [if_neg (fun h => hne ((tokenizeIdentifier_isEmpty query).mp h))]
    by_cases hu : expand (rawTokens query) = []
    · simp [hu, wellFormedFor_none]
    · rw [← wellFormedFor_matchText hu]
      simp [matchText_ne_empty hu, hu]

/-- The three expressions are disjunctions of string literals that hold just the tokens of their
unions exactly for plain queries, and for the synonym table's expression exactly when the aliases
of the query's words are plain too. -/
theorem matchExprs_wellFormed_iff (table : List SynonymRow) (query : String) :
    (WellFormedFor (rawTokens query) (buildMatchExpr query) ↔ PlainQuery query) ∧
    (WellFormedFor (expandTokens (rawTokens query)) (buildFuzzyMatchExpr query) ↔
      PlainQuery query) ∧
    (WellFormedFor (expandTokensDb table (rawTokens query)) (buildFuzzyMatchExprDb table query) ↔
      PlainQuery query ∧ PlainAliases (aliasesOf table) query) := by
  refine ⟨?_, ?_, ?_⟩
  · rw [buildMatchExpr_wellFormed_iff, plain_rawTokens_iff]
  · have hwf := buildFuzzyWith_wellFormed_iff expandTokens rfl query
    rw [buildFuzzyMatchExpr, hwf, expandTokens, plain_expandWith_iff]
    exact and_iff_left (plainAliases_synonymsFor query)
  · have hwf := buildFuzzyWith_wellFormed_iff (expandTokensDb table) rfl query
    rw [buildFuzzyMatchExprDb, hwf, expandTokensDb, plain_expandWith_iff]

/-- `say"hi` becomes `"say" OR "say"hi"`, where the last quote opens a literal that never ends. -/
theorem buildMatchExpr_open_literal :
    ¬ (∀ (table : List SynonymRow) (query : String),
      WellFormedFor (rawTokens query) (buildMatchExpr query) ∧
      WellFormedFor (expandTokens (rawTokens query)) (buildFuzzyMatchExpr query) ∧
      WellFormedFor (expandTokensDb table (rawTokens query))
        (buildFuzzyMatchExprDb table query)) := by
  intro h
  have hexpr : buildMatchExpr "say\"hi" = some "\"say\" OR \"say\"hi\"" := by decide +kernel
  have hread : Fts5.readDisjunction "\"say\" OR \"say\"hi\"".toList = none := by decide +kernel
  have hsome := (h [] "say\"hi").1 _ hexpr
  rw [hread] at hsome
  cases hsome

end Travsr.Store
