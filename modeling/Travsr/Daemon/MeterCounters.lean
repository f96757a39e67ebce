import Travsr.Core.Ascii
import Travsr.Core.Corpus
import Travsr.Daemon.LivePrecision

namespace Travsr.Daemon

open Travsr.Core Travsr.Store Relational

/-! ### The counters as text -/

theorem parseU64_lt {s : List Char} {n : Nat} (h : parseU64 s = some n) : n < 2 ^ 64 := by
  unfold parseU64 at h
  dsimp only at h
  split_ifs at h with hp hc hc <;> (rw [← Option.some.inj h]; exact hc.2.2)

theorem parseU64_repr {n : Nat} (h : n < 2 ^ 64) : parseU64 n.repr.toList = some n := by
  rw [Nat.toList_repr]
  have hdigit : ∀ c ∈ Nat.toDigits 10 n, c.isDigit :=
    fun c hc => Nat.isDigit_of_mem_toDigits (by decide) (by decide) hc
  have hplus : (Nat.toDigits 10 n).head? ≠ some '+' := by
    intro hp
    exact absurd (hdigit '+' (List.mem_of_head? hp)) (by decide)
  unfold parseU64
  dsimp only
  rw [if_neg hplus, Nat.ofDigitChars_ten_toDigits, if_pos]
  refine ⟨Nat.toDigits_ne_nil, ?_, h⟩
  rw [List.all_eq_true]
  exact hdigit

theorem isWhitespace_of_isDigit {c : Char} (h : c.isDigit) : Text.isWhitespace c = false :=
  Text.not_isWhitespace_of_isAlphanum (by rw [Char.isAlphanum, h, Bool.or_true])

theorem trimChars_repr (n : Nat) : Text.trimChars n.repr.toList = n.repr.toList := by
  have hdigit : ∀ c ∈ n.repr.toList, Text.isWhitespace c = false := by
    intro c hc
    rw [Nat.toList_repr] at hc
    exact isWhitespace_of_isDigit (Nat.isDigit_of_mem_toDigits (by decide) (by decide) hc)
  exact Corpus.trimChars_eq (fun c hc => hdigit c (List.mem_of_head? hc))
    (fun c hc => hdigit c (List.mem_of_getLast? hc))

theorem comma_not_mem_repr (n : Nat) : ∀ c ∈ n.repr.toList, (c == ',') = false := by
  intro c hc
  rw [Nat.toList_repr] at hc
  have hd : c.isDigit := Nat.isDigit_of_mem_toDigits (by decide) (by decide) hc
  rw [beq_eq_false_iff_ne]
  rintro rfl
  exact absurd hd (by decide)

theorem parseTotals_formatTotals {p : LivePrecision} (h : ∀ v, p.bucket v < 2 ^ 64) :
    parseTotals (formatTotals p) = p := by
  have hsplit : Text.splitOn (fun c => c == ',') (formatTotals p).toList =
      [p.agree.repr.toList, p.disagree.repr.toList, p.unverifiable.repr.toList] := by
    simp only [formatTotals, String.toList_append, List.append_assoc]
    change Text.splitOn _ (p.agree.repr.toList ++ ',' :: (p.disagree.repr.toList ++
      ',' :: p.unverifiable.repr.toList)) = _
    rw [Text.splitOn_append_cons (comma_not_mem_repr _) rfl,
      Text.splitOn_append_cons (comma_not_mem_repr _) rfl,
      Text.splitOn_of_not_mem (comma_not_mem_repr _)]
  unfold parseTotals
  rw [hsplit]
  have ha : parseU64 p.agree.repr.toList = some p.agree := parseU64_repr (h .agree)
  have hd : parseU64 p.disagree.repr.toList = some p.disagree := parseU64_repr (h .disagree)
  have hu : parseU64 p.unverifiable.repr.toList = some p.unverifiable :=
    parseU64_repr (h .unverifiable)
  simp only [List.filterMap_cons, List.filterMap_nil, trimChars_repr, ha, hd, hu]

theorem parseTotals_lt (raw : String) (v : Verdict) : (parseTotals raw).bucket v < 2 ^ 64 := by
  unfold parseTotals
  split
  · rename_i a d u h
    have hmem : ∀ n ∈ [a, d, u], n < 2 ^ 64 := by
      intro n hn
      rw [← h] at hn
      obtain ⟨p, -, hp⟩ := List.mem_filterMap.mp hn
      exact parseU64_lt hp
    cases v
    · exact hmem a (by simp)
    · exact hmem d (by simp)
    · exact hmem u (by simp)
  · rw [LivePrecision.bucket_zero]
    exact Nat.two_pow_pos 64

theorem bucket_addPrecision (p q : LivePrecision) (v : Verdict) :
    (addPrecision p q).bucket v = (p.bucket v + q.bucket v) % 2 ^ 64 := by
  cases v <;> rfl

theorem parseTotals_addPrecision (p q : LivePrecision) :
    parseTotals (formatTotals (addPrecision p q)) = addPrecision p q := by
  apply parseTotals_formatTotals
  intro v
  rw [bucket_addPrecision]
  exact Nat.mod_lt _ (Nat.two_pow_pos 64)

theorem parseTotals_empty : parseTotals "" = .zero := by decide +kernel

theorem livePrecisionMetaKey_injective : Function.Injective livePrecisionMetaKey := by
  intro a b h
  have hlen : ∀ l : String, LIVE_PRECISION_META ≠ LIVE_PRECISION_META ++ "." ++ l := by
    intro l hl
    have := congrArg String.length hl
    simp only [String.length_append] at this
    have hdot : ".".length = 1 := rfl
    omega
  cases a with
  | none =>
    cases b with
    | none => rfl
    | some l => exact absurd h (hlen l)
  | some k =>
    cases b with
    | none => exact absurd h.symm (hlen k)
    | some l =>
      have hkl : LIVE_PRECISION_META ++ "." ++ k = LIVE_PRECISION_META ++ "." ++ l := h
      rw [String.append_right_inj] at hkl
      rw [hkl]

/-! ### Reading and writing them -/

section

variable {f : Faults} {s : LiveStore}

def counter (s : LiveStore) (language : Option String) (v : Verdict) : Nat :=
  (parseTotals ((s.getMeta (livePrecisionMetaKey language)).getD "")).bucket v

def isLanguageRow (r : MetaRow) : Bool := Text.startsWith r.name (LIVE_PRECISION_META ++ ".")

def languagePart (v : Verdict) (r : MetaRow) : Nat :=
  if isLanguageRow r then (parseTotals r.value).bucket v else 0

def languageSum (s : LiveStore) (v : Verdict) : Nat := (s.metadata.rows.map (languagePart v)).sum

theorem counter_lt (s : LiveStore) (language : Option String) (v : Verdict) :
    counter s language v < 2 ^ 64 := parseTotals_lt _ v

theorem getMeta_setMeta (s : LiveStore) (name value other : String) :
    (s.setMeta name value).getMeta other = if name = other then some value else s.getMeta other := by
  have hfind := Table.find?_upsert s.metadata ⟨name, value⟩ (fun r => { r with value := value })
    (fun _ => rfl) other
  unfold LiveStore.getMeta LiveStore.setMeta
  rw [hfind]
  by_cases h : name = other
  · rw [if_pos h, if_pos h]
    cases s.metadata.find? other <;> rfl
  · rw [if_neg h, if_neg h]

theorem counter_writePrecisionTotals {language other : Option String} {p : LivePrecision}
    {v : Verdict} (hp : parseTotals (formatTotals p) = p) :
    counter (writePrecisionTotals f s language p) other v =
      if language = other ∧ f.write language = false then p.bucket v else counter s other v := by
  unfold writePrecisionTotals counter
  cases hw : f.write language with
  | true => simp
  | false =>
    simp only [Bool.false_eq_true, if_false, getMeta_setMeta, and_true,
      livePrecisionMetaKey_injective.eq_iff]
    split_ifs with h
    · rw [Option.getD_some, hp]
    · rfl

theorem isLanguageRow_key (language : Option String) (value : String) :
    isLanguageRow ⟨livePrecisionMetaKey language, value⟩ = language.isSome := by
  unfold isLanguageRow Text.startsWith
  cases language with
  | none =>
    change (LIVE_PRECISION_META ++ ".").toList.isPrefixOf LIVE_PRECISION_META.toList = false
    decide +kernel
  | some l =>
    have happend : (LIVE_PRECISION_META ++ "." ++ l).toList =
        (LIVE_PRECISION_META ++ ".").toList ++ l.toList := String.toList_append
    rw [Option.isSome_some, List.isPrefixOf_iff_prefix]
    change (LIVE_PRECISION_META ++ ".").toList <+: (LIVE_PRECISION_META ++ "." ++ l).toList
    rw [happend]
    exact List.prefix_append _ _

theorem languageSum_writePrecisionTotals {language : Option String} {p : LivePrecision}
    {v : Verdict} :
    languageSum (writePrecisionTotals f s language p) v +
        (if language.isSome then counter s language v else 0) =
      languageSum s v +
        if language.isSome then counter (writePrecisionTotals f s language p) language v else 0 := by
  cases hw : f.write language with
  | true =>
    have hsame : writePrecisionTotals f s language p = s := by
      rw [writePrecisionTotals, if_pos hw]
    rw [hsame]
  | false =>
    have hset : writePrecisionTotals f s language p =
        s.setMeta (livePrecisionMetaKey language) (formatTotals p) := by
      rw [writePrecisionTotals, hw]
      rfl
    have hsum := Table.sum_upsert s.metadata ⟨livePrecisionMetaKey language, formatTotals p⟩
      (fun r => { r with value := formatTotals p }) (fun _ => rfl) (languagePart v)
    have hnew : counter (writePrecisionTotals f s language p) language v =
        (parseTotals (formatTotals p)).bucket v := by
      rw [hset, counter, getMeta_setMeta, if_pos rfl, Option.getD_some]
    have hold : ((s.metadata.find? (livePrecisionMetaKey language)).elim 0 (languagePart v)) =
        if language.isSome then counter s language v else 0 := by
      rw [counter, LiveStore.getMeta]
      cases hf : s.metadata.find? (livePrecisionMetaKey language) with
      | none => simp [parseTotals_empty]
      | some o =>
        have hname : o = ⟨livePrecisionMetaKey language, o.value⟩ := by
          rw [← (Table.mem_of_find? hf).2]
        rw [Option.elim_some, Option.map_some, Option.getD_some, languagePart, hname,
          isLanguageRow_key]
    have hput : languagePart v ((s.metadata.find? (livePrecisionMetaKey language)).elim
        ⟨livePrecisionMetaKey language, formatTotals p⟩
          fun r => { r with value := formatTotals p }) =
        if language.isSome then (parseTotals (formatTotals p)).bucket v else 0 := by
      cases hf : s.metadata.find? (livePrecisionMetaKey language) with
      | none => rw [Option.elim_none, languagePart, isLanguageRow_key]
      | some o =>
        have hname : o.name = livePrecisionMetaKey language := (Table.mem_of_find? hf).2
        rw [Option.elim_some, hname, languagePart, isLanguageRow_key]
    rw [hnew, ← hold, ← hput, hset]
    exact hsum

theorem bucket_read {language : Option String} {v : Verdict} :
    (readPrecisionTotalsFor f s language).bucket v =
      if f.read language then 0 else counter s language v := by
  unfold readPrecisionTotalsFor counter
  split_ifs with h
  · rw [parseTotals_empty, LivePrecision.bucket_zero]
  · rfl

end

end Travsr.Daemon

namespace Travsr.Daemon

open Travsr.Core Travsr.Store Relational

/-- The store a ratification finds: the live lane has passed over some files, and then Phase B has
written the graph anew in whatever way it does. -/
def beforeRatification (s : LiveStore) (passes : List LivePassInput)
    (phaseB : SqliteStore → SqliteStore) : LiveStore :=
  let t := passes.foldl livePass s
  { t with toSqliteStore := phaseB t.toSqliteStore }

section

variable (t : LiveStore) (r : RefResolution)

/-- An occurrence of the reference: on its line, of a target with its name. -/
def NamesReference (site : SiteRow) : Prop :=
  site ∈ t.sites ∧ site.src = r.src ∧ site.line = r.refLine ∧
    ∃ d ∈ t.nodes.find? site.dst, signatureNames d.vname.signature r.name

/-- An edge the claim asserts. -/
def AssertsEdge (e : EdgeRow) : Prop := e ∈ t.edges ∧ e.src = r.src ∧ some e.dst = r.resolvedDst

theorem hasSiteFor_iff : t.HasSiteFor r ↔ ∃ site, NamesReference t r site :=
  ⟨fun ⟨site, hs, h⟩ => ⟨site, hs, h⟩, fun ⟨site, hs, h⟩ => ⟨site, hs, h⟩⟩

theorem verdict_agree_iff :
    t.verdict r = .agree ↔ (∃ site, NamesReference t r site) ∧
      (∃ site, site ∈ t.sites ∧ site.src = r.src ∧ site.line = r.refLine ∧
        some site.dst = r.resolvedDst) ∧ ∃ e, AssertsEdge t r e := by
  have hm : t.Matches r ↔ (∃ site, site ∈ t.sites ∧ site.src = r.src ∧ site.line = r.refLine ∧
      some site.dst = r.resolvedDst) ∧ ∃ e, AssertsEdge t r e := Iff.rfl
  rw [← hasSiteFor_iff, ← hm, LiveStore.verdict]
  split_ifs with hs hma
  · exact iff_of_true rfl ⟨hs, hma⟩
  · exact iff_of_false (by simp) fun h => hma h.2
  · exact iff_of_false (by simp) fun h => hs h.1

theorem verdict_unverifiable_iff :
    t.verdict r = .unverifiable ↔ ¬ ∃ site, NamesReference t r site := by
  rw [← hasSiteFor_iff, LiveStore.verdict]
  split_ifs with hs hm
  · exact iff_of_false (by simp) fun h => h hs
  · exact iff_of_false (by simp) fun h => h hs
  · exact iff_of_true rfl hs

/-- The claim's target has an occurrence on its line, and every edge to the target is live. -/
def RestsOnLiveEdge : Prop :=
  (∃ site, NamesReference t r site) ∧
    (∃ site, site ∈ t.sites ∧ site.src = r.src ∧ site.line = r.refLine ∧
      some site.dst = r.resolvedDst) ∧
    (∃ e, AssertsEdge t r e) ∧ ∀ e, AssertsEdge t r e → e.provenance = "live"

/-- There are occurrences of the reference, and none of them is Phase B's. -/
def RestsOnLiveSite (wrote : SiteRow → Prop) : Prop :=
  (∃ site, NamesReference t r site) ∧ ∀ site, NamesReference t r site → ¬ wrote site

end

variable {f : Faults} {t : LiveStore} {ratified : List String}

theorem ratify_edges (e : EdgeRow) :
    e ∈ (ratifyLiveOverlay f t ratified).edges ↔
      e ∈ t.edges ∧ (f.sweep = false → ¬ t.Retired ratified e) := by
  have hscore : (consumeClaims f (measureLivePrecision f t ratified) ratified).toSqliteStore =
      t.toSqliteStore := consumeClaims_frame.1.trans measureLivePrecision_frame.1
  have hend : (ratifyLiveOverlay f t ratified).toSqliteStore = (sweepOverlay f
      (consumeClaims f (measureLivePrecision f t ratified) ratified) ratified).toSqliteStore :=
    reconcileClaims_frame.1
  rw [hend, sweepOverlay]
  split_ifs with hf
  · rw [hscore]
    simp [hf]
  · have hspec := (SqliteStore.sweepLiveEdges_spec t.toSqliteStore ratified).1 e
    rw [hscore]
    simp only [hf, forall_const]
    exact hspec

theorem agrees_kept_iff {r : RefResolution} (hr : t.verdict r = .agree) :
    (∃ e, e ∈ (ratifyLiveOverlay f t ratified).edges ∧ e.src = r.src ∧
        some e.dst = r.resolvedDst ∧ e.provenance ≠ "live") ↔ ¬ RestsOnLiveEdge t r := by
  obtain ⟨hs, hd, he⟩ := (verdict_agree_iff t r).mp hr
  constructor
  · rintro ⟨e, hmem, hsrc, hdst, hp⟩ ⟨-, -, -, hlive⟩
    exact hp (hlive e ⟨((ratify_edges e).mp hmem).1, hsrc, hdst⟩)
  · intro hn
    have hsome : ∃ e, AssertsEdge t r e ∧ e.provenance ≠ "live" := by
      by_contra hall
      refine hn ⟨hs, hd, he, ?_⟩
      intro e ha
      by_contra hp
      exact hall ⟨e, ha, hp⟩
    obtain ⟨e, ⟨hmem, hsrc, hdst⟩, hp⟩ := hsome
    exact ⟨e, (ratify_edges e).mpr ⟨hmem, fun _ h => hp h.1⟩, hsrc, hdst, hp⟩

/-- The meter cannot agree with itself over a store, its sites by Phase B being those `wrote`: the
claims that agree keep an edge that is not live, and a claim of whose reference Phase B wrote no
occurrence is unverifiable. -/
def Independent (t : LiveStore) (wrote : SiteRow → Prop) (f : Faults) (ratified : List String) :
    Prop :=
  ∀ c ∈ t.claims, c.1 ∈ ratified →
    (t.verdict c.2 = .agree → ∃ e, e ∈ (ratifyLiveOverlay f t ratified).edges ∧ e.src = c.2.src ∧
      some e.dst = c.2.resolvedDst ∧ e.provenance ≠ "live") ∧
    ((¬ ∃ site, NamesReference t c.2 site ∧ wrote site) → t.verdict c.2 = .unverifiable)

/-- The meter is independent of the live lane exactly when no claim it scores rests on rows of the
live lane alone. The sample counts what the verdicts come to. -/
theorem meter_independent_iff (s : LiveStore) (passes : List LivePassInput)
    (phaseB : SqliteStore → SqliteStore) (wrote : SiteRow → Prop) (f : Faults)
    (ratified : List String) :
    let t := beforeRatification s passes phaseB
    (∀ language v, ((t.livePrecisionSampleByLanguage.get? language).getD .zero).bucket v =
        t.claims.countP fun c => c.1 = language && t.verdict c.2 = v) ∧
      (Independent t wrote f ratified ↔
        ∀ c ∈ t.claims, c.1 ∈ ratified →
          ¬ RestsOnLiveEdge t c.2 ∧ ¬ RestsOnLiveSite t c.2 wrote) := by
  intro t
  refine ⟨fun language v => t.sample_bucket language v, ?_⟩
  refine forall_congr' fun c => forall_congr' fun _ => forall_congr' fun _ => ?_
  have hedge : (t.verdict c.2 = .agree → ∃ e, e ∈ (ratifyLiveOverlay f t ratified).edges ∧
      e.src = c.2.src ∧ some e.dst = c.2.resolvedDst ∧ e.provenance ≠ "live") ↔
        ¬ RestsOnLiveEdge t c.2 := by
    constructor
    · intro h hrests
      have ha : t.verdict c.2 = .agree :=
        (verdict_agree_iff t c.2).mpr ⟨hrests.1, hrests.2.1, hrests.2.2.1⟩
      exact (agrees_kept_iff ha).mp (h ha) hrests
    · exact fun hn ha => (agrees_kept_iff ha).mpr hn
  have hsite : ((¬ ∃ site, NamesReference t c.2 site ∧ wrote site) →
      t.verdict c.2 = .unverifiable) ↔ ¬ RestsOnLiveSite t c.2 wrote := by
    rw [verdict_unverifiable_iff]
    constructor
    · rintro h ⟨hsome, hnone⟩
      exact h (fun ⟨site, hn, hw⟩ => hnone site hn hw) hsome
    · intro hn hnone hsome
      exact hn ⟨hsome, fun site hsite hw => hnone ⟨site, hsite, hw⟩⟩
  rw [hedge, hsite]

def callerStore : LiveStore where
  __ := SqliteStore.empty
  nodes := (phaseBNodes SqliteStore.empty [
    { parsed "a.py" "python" "fn:main" "function" with line := some 1, endLine := some 3 },
    { parsed "a.py" "python" "fn:go" "function" with line := some 5, endLine := some 6 }]).1
  refs := Table.empty
  metadata := Table.empty

/-- The editor resolves a call on line 2, and Phase B writes nothing for it: the claim agrees with
the edge and the occurrence the live lane wrote, and the sweep removes the edge. -/
theorem meter_agrees_with_itself :
    ¬ ∀ (s : LiveStore) (passes : List LivePassInput) (phaseB : SqliteStore → SqliteStore)
      (wrote : SiteRow → Prop) (f : Faults) (ratified : List String),
      Independent (beforeRatification s passes phaseB) wrote f ratified := by
  intro h
  have hc := h callerStore [.editor "repo" "a.py" [⟨2, "go", "a.py", 5, "ref/call"⟩]] id
    (fun _ => False) .none ["python"] ("python", ⟨11, 2, 0, "go", .resolved, some 9⟩)
    (by decide +kernel) (by decide)
  obtain ⟨e, hmem, -⟩ := hc.1 (by decide +kernel)
  have hempty : (ratifyLiveOverlay .none (beforeRatification callerStore
      [.editor "repo" "a.py" [⟨2, "go", "a.py", 5, "ref/call"⟩]] id) ["python"]).edges.rows = [] := by
    decide +kernel
  rw [← Table.mem_rows, hempty] at hmem
  exact List.not_mem_nil hmem

end Travsr.Daemon
