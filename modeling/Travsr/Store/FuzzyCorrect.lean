import Mathlib.Data.Finset.Basic
import Mathlib.Data.Finset.Card
import Mathlib.Data.Rat.Floor
import Mathlib.Tactic.Linarith
import Travsr.Core.Ascii
import Travsr.Lib.TopTwo
import Travsr.Store.Schema

namespace Travsr.Store

open Travsr.Core Core.Text Core.Ident

def trigrams (s : String) : Finset (List UInt8) :=
  ((s.toUTF8.toList.tails.filter fun w => 3 ≤ w.length).map fun w => w.take 3).toFinset

/-- `byte_trigram_jaccard`, the quotient rounded to an `f64`. -/
def byteTrigramJaccard (nearest : ℚ → ℚ) (a b : String) : ℚ :=
  if byteLen a < 3 ∨ byteLen b < 3 then 0
  else if (trigrams a ∪ trigrams b).card = 0 then 0
  else nearest ((trigrams a ∩ trigrams b).card / (trigrams a ∪ trigrams b).card)

/-- What `SELECT DISTINCT signature FROM nodes LIMIT 200000` answers, in whatever order. -/
structure SignatureScan (s : SqliteStore) where
  rows : List String
  nodup : rows.Nodup
  stored : ∀ sig ∈ rows, ∃ r, r ∈ s.nodes ∧ r.vname.signature = sig
  length_eq : rows.length =
    min 200000 (s.nodes.rows.map fun r => r.vname.signature).toFinset.card

namespace Fuzzy

/-- A candidate: the lower-case leaf, its similarity, and the leaf as it was first seen. -/
structure Named where
  lower : String
  jaccard : ℚ
  leaf : String
  deriving DecidableEq

/-- The accumulator of a token. -/
structure Acc where
  exact : Bool
  byName : List Named

/-- `entry(..).and_modify(..).or_insert(..)`. -/
def Acc.note (byName : List Named) (cand : Named) : List Named :=
  if byName.any (·.lower = cand.lower) then
    byName.map fun e => if e.lower = cand.lower ∧ e.jaccard < cand.jaccard then cand else e
  else byName ++ [cand]

def Acc.visit (nearest : ℚ → ℚ) (minJaccard : ℚ) (tokLower : String) (acc : Acc) (sig : String) :
    Acc :=
  let leaf := leafOf sig
  let leafLower := toAsciiLowercase leaf
  if acc.exact then acc
  else if leafLower = tokLower then { acc with exact := true }
  else
    let j := byteTrigramJaccard nearest tokLower leafLower
    if j < minJaccard then acc
    else { acc with byName := Acc.note acc.byName ⟨leafLower, j, leaf⟩ }

def better (a b : Named) : Bool :=
  b.jaccard < a.jaccard || (a.jaccard = b.jaccard && a.leaf < b.leaf)

/-- `best_j - second_j < AMBIGUITY_MARGIN`. -/
def Close (nearest : ℚ → ℚ) (best second : ℚ) : Prop :=
  nearest (best - second) < nearest (1 / 20)

instance (nearest : ℚ → ℚ) (best second : ℚ) : Decidable (Close nearest best second) :=
  inferInstanceAs (Decidable (_ < _))

def Acc.answer (nearest : ℚ → ℚ) (acc : Acc) : Option String :=
  if acc.exact then none
  else
    let (best, second) := acc.byName.foldl (TopTwo.track better) (none, none)
    best.bind fun b =>
      if second.any fun c => Close nearest b.jaccard c.jaccard then none else some b.leaf

/-- The tokens that are scored, each with its lower-case spelling; one of several spellings. -/
def lowered (tokens : List String) : List (String × String) :=
  tokens.foldl (fun acc tok =>
    if byteLen tok < 5 then acc
    else
      let lower := toAsciiLowercase tok
      if acc.any (·.2 = lower) then acc else acc ++ [(tok, lower)]) []

end Fuzzy

open Fuzzy

/-- `fuzzy_correct_symbols`: one pass over the signatures for all tokens. -/
def fuzzyCorrectSymbols (nearest : ℚ → ℚ) (rows : List String) (tokens : List String)
    (minJaccard : ℚ) : List (String × String) :=
  let slots := (lowered tokens).map fun t => (t, (⟨false, []⟩ : Acc))
  (rows.foldl (fun slots sig =>
      slots.map fun e => (e.1, Acc.visit nearest minJaccard e.1.2 e.2 sig)) slots).filterMap
    fun e => (e.2.answer nearest).map fun leaf => (e.1.1, leaf)

/-- `HashMap::get` on what was inserted, the last of a key. -/
def corrected (out : List (String × String)) (tok : String) : Option String :=
  (out.reverse.find? (·.1 = tok)).map Prod.snd

/-- `fuzzy_correct_symbol`. -/
def fuzzyCorrectSymbol (nearest : ℚ → ℚ) (rows : List String) (tok : String) (minJaccard : ℚ) :
    Option String :=
  corrected (fuzzyCorrectSymbols nearest rows [tok] minJaccard) tok

namespace Fuzzy

variable {nearest : ℚ → ℚ} {rows : List String} {minJaccard : ℚ} {w : String}

/-! ### The scan of one token -/

def leafLower (sig : String) : String := toAsciiLowercase (leafOf sig)

def similarity (nearest : ℚ → ℚ) (w sig : String) : ℚ :=
  byteTrigramJaccard nearest w (leafLower sig)

def named (nearest : ℚ → ℚ) (w sig : String) : Named :=
  ⟨leafLower sig, similarity nearest w sig, leafOf sig⟩

/-- The accumulator after the signatures. -/
structure Scanned (nearest : ℚ → ℚ) (minJaccard : ℚ) (w : String) (rows : List String) (acc : Acc) :
    Prop where
  exact_iff : acc.exact = true ↔ ∃ sig ∈ rows, leafLower sig = w
  entries : ∀ e ∈ acc.byName, ∃ sig ∈ rows,
    e = named nearest w sig ∧ minJaccard ≤ similarity nearest w sig
  nodup : (acc.byName.map Named.lower).Nodup
  complete : acc.exact = false → ∀ sig ∈ rows, minJaccard ≤ similarity nearest w sig →
    leafLower sig ∈ acc.byName.map Named.lower

theorem note_of_mem {byName : List Named} {cand : Named}
    (hsame : ∀ e ∈ byName, e.lower = cand.lower → e.jaccard = cand.jaccard)
    (h : cand.lower ∈ byName.map Named.lower) : Acc.note byName cand = byName := by
  have hany : byName.any (·.lower = cand.lower) = true := by
    obtain ⟨e, he, heq⟩ := List.mem_map.mp h
    exact List.any_eq_true.mpr ⟨e, he, by simpa using heq⟩
  rw [Acc.note, if_pos hany]
  conv_rhs => rw [← List.map_id byName]
  refine List.map_congr_left fun e he => if_neg fun hlt => ?_
  exact absurd (hsame e he hlt.1) (ne_of_lt hlt.2)

theorem note_of_notMem {byName : List Named} {cand : Named}
    (h : cand.lower ∉ byName.map Named.lower) : Acc.note byName cand = byName ++ [cand] := by
  have hany : ¬ byName.any (·.lower = cand.lower) = true := by
    intro hany
    obtain ⟨e, he, heq⟩ := List.any_eq_true.mp hany
    exact h (List.mem_map.mpr ⟨e, he, by simpa using heq⟩)
  rw [Acc.note, if_neg hany]

theorem Scanned.visit {acc : Acc} (h : Scanned nearest minJaccard w rows acc) (sig : String) :
    Scanned nearest minJaccard w (rows ++ [sig]) (acc.visit nearest minJaccard w sig) := by
  have hlast : sig ∈ rows ++ [sig] := List.mem_append_right rows (List.mem_singleton.mpr rfl)
  have hentries : ∀ e ∈ acc.byName, ∃ sig' ∈ rows ++ [sig],
      e = named nearest w sig' ∧ minJaccard ≤ similarity nearest w sig' := by
    intro e he
    obtain ⟨sig', hsig, heq⟩ := h.entries e he
    exact ⟨sig', List.mem_append_left _ hsig, heq⟩
  have hexact : (∃ sig' ∈ rows ++ [sig], leafLower sig' = w) ↔
      acc.exact = true ∨ leafLower sig = w := by
    rw [h.exact_iff]
    simp [or_and_right, exists_or]
  rw [Acc.visit]
  show Scanned nearest minJaccard w (rows ++ [sig]) (if acc.exact = true then acc
    else if leafLower sig = w then _ else if similarity nearest w sig < minJaccard then acc
    else { acc with byName := Acc.note acc.byName (named nearest w sig) })
  split_ifs with hex heq hlow
  · refine ⟨iff_of_true hex (hexact.mpr (Or.inl hex)), hentries, h.nodup, fun hno => ?_⟩
    rw [hex] at hno
    cases hno
  · exact ⟨iff_of_true rfl (hexact.mpr (Or.inr heq)), hentries, h.nodup, nofun⟩
  · refine ⟨(hexact.trans (or_iff_left heq)).symm, hentries, h.nodup, ?_⟩
    intro hno sig' hsig' hle
    cases List.mem_append.mp hsig' with
    | inl hrow => exact h.complete hno sig' hrow hle
    | inr hone =>
      rw [List.mem_singleton.mp hone] at hle
      exact absurd hlow (not_lt.mpr hle)
  · have hno : acc.exact = false := by simpa using hex
    by_cases hmem : leafLower sig ∈ acc.byName.map Named.lower
    · have hsame : ∀ e ∈ acc.byName, e.lower = (named nearest w sig).lower →
          e.jaccard = (named nearest w sig).jaccard := by
        intro e he hlower
        obtain ⟨sig', _, rfl, _⟩ := h.entries e he
        exact congrArg (byteTrigramJaccard nearest w) hlower
      have hold : (named nearest w sig).lower ∈ acc.byName.map Named.lower := hmem
      rw [note_of_mem hsame hold]
      refine ⟨(hexact.trans (or_iff_left heq)).symm, hentries, h.nodup, ?_⟩
      intro _ sig' hsig' hle
      cases List.mem_append.mp hsig' with
      | inl hrow => exact h.complete hno sig' hrow hle
      | inr hone =>
        rw [List.mem_singleton.mp hone]
        exact hmem
    · have hnew : (named nearest w sig).lower ∉ acc.byName.map Named.lower := hmem
      rw [note_of_notMem hnew]
      refine ⟨(hexact.trans (or_iff_left heq)).symm, ?_, ?_, ?_⟩
      · intro e he
        cases List.mem_append.mp he with
        | inl hold => exact hentries e hold
        | inr hone =>
          exact ⟨sig, hlast, List.mem_singleton.mp hone, not_lt.mp hlow⟩
      · have hnodup := List.Nodup.concat hnew h.nodup
        rw [List.concat_eq_append] at hnodup
        rw [List.map_append, List.map_singleton]
        exact hnodup
      · intro _ sig' hsig' hle
        rw [List.map_append]
        cases List.mem_append.mp hsig' with
        | inl hrow => exact List.mem_append_left _ (h.complete hno sig' hrow hle)
        | inr hone =>
          rw [List.mem_singleton.mp hone]
          exact List.mem_append_right _ (List.mem_singleton.mpr rfl)

theorem scanned (nearest : ℚ → ℚ) (minJaccard : ℚ) (w : String) (rows : List String) :
    Scanned nearest minJaccard w rows
      (rows.foldl (Acc.visit nearest minJaccard w) ⟨false, []⟩) := by
  induction rows using List.reverseRecOn with
  | nil =>
    exact ⟨by simp, fun _ he => absurd he List.not_mem_nil, List.nodup_nil,
      fun _ _ hsig => absurd hsig List.not_mem_nil⟩
  | append_singleton rows sig ih =>
    rw [List.foldl_append]
    exact ih.visit sig

/-! ### The answer for one token -/

def correction (nearest : ℚ → ℚ) (minJaccard : ℚ) (rows : List String) (w : String) :
    Option String :=
  (rows.foldl (Acc.visit nearest minJaccard w) ⟨false, []⟩).answer nearest

def nameSimilarity (nearest : ℚ → ℚ) (w leaf : String) : ℚ :=
  byteTrigramJaccard nearest w (toAsciiLowercase leaf)

/-- A leaf that clears the threshold, with every other leaf that does at least the margin behind,
for a token that no leaf spells. -/
structure Leader (nearest : ℚ → ℚ) (minJaccard : ℚ) (rows : List String) (w leaf : String) :
    Prop where
  stored : ∃ sig ∈ rows, leafOf sig = leaf
  notExact : ∀ sig ∈ rows, leafLower sig ≠ w
  clears : minJaccard ≤ nameSimilarity nearest w leaf
  ahead : ∀ sig ∈ rows, leafLower sig ≠ toAsciiLowercase leaf →
    minJaccard ≤ similarity nearest w sig →
      similarity nearest w sig ≤ nameSimilarity nearest w leaf ∧
        ¬ Close nearest (nameSimilarity nearest w leaf) (similarity nearest w sig)

theorem jaccard_le_of_better {a b : Named} (h : better a b = true) : b.jaccard ≤ a.jaccard := by
  simp only [better, Bool.or_eq_true, Bool.and_eq_true, decide_eq_true_eq] at h
  cases h with
  | inl hlt => exact hlt.le
  | inr heq => exact heq.1.symm.le

theorem better_trans (a b c : Named) (hab : better a b = true) (hbc : better b c = true) :
    better a c = true := by
  have hle := (jaccard_le_of_better hbc).trans (jaccard_le_of_better hab)
  simp only [better, Bool.or_eq_true, Bool.and_eq_true, decide_eq_true_eq] at hab hbc ⊢
  cases hle.lt_or_eq with
  | inl hlt => exact Or.inl hlt
  | inr heq =>
    rcases hab with hab | hab
    · exact Or.inl (lt_of_le_of_lt (by rcases hbc with h | h; exacts [h.le, h.1.symm.le]) hab)
    · rcases hbc with hbc | hbc
      · exact Or.inl (hbc.trans_le hab.1.symm.le)
      · exact Or.inr ⟨heq.symm, lt_trans hab.2 hbc.2⟩

theorem Scanned.key {acc : Acc} (h : Scanned nearest minJaccard w rows acc) {e : Named}
    (he : e ∈ acc.byName) : ∃ sig ∈ rows, e = named nearest w sig ∧
      minJaccard ≤ similarity nearest w sig ∧ e.lower = toAsciiLowercase e.leaf ∧
      e.jaccard = nameSimilarity nearest w e.leaf := by
  obtain ⟨sig, hsig, rfl, hle⟩ := h.entries e he
  exact ⟨sig, hsig, rfl, hle, rfl, rfl⟩

theorem Scanned.eq_of_lower {acc : Acc} (h : Scanned nearest minJaccard w rows acc) {a b : Named}
    (ha : a ∈ acc.byName) (hb : b ∈ acc.byName) (heq : a.lower = b.lower) : a = b :=
  List.inj_on_of_nodup_map h.nodup ha hb heq

theorem Scanned.ranks {acc : Acc} (h : Scanned nearest minJaccard w rows acc) :
    TopTwo.Ranks better acc.byName := by
  refine ⟨fun a ha b hb hne => ?_, better_trans⟩
  obtain ⟨_, _, _, _, hal, _⟩ := h.key ha
  obtain ⟨_, _, _, _, hbl, _⟩ := h.key hb
  have hleaf : a.leaf ≠ b.leaf := fun heq =>
    hne (h.eq_of_lower ha hb (by rw [hal, hbl, heq]))
  simp only [better, Bool.or_eq_true, Bool.and_eq_true, decide_eq_true_eq]
  rcases lt_trichotomy a.jaccard b.jaccard with hlt | heq | hgt
  · exact Or.inr (Or.inl hlt)
  · rcases lt_or_gt_of_ne hleaf with hll | hgl
    · exact Or.inl (Or.inr ⟨heq, hll⟩)
    · exact Or.inr (Or.inr ⟨heq.symm, hgl⟩)
  · exact Or.inl (Or.inl hgt)

theorem Scanned.tops {acc : Acc} (h : Scanned nearest minJaccard w rows acc) :
    TopTwo.Tops better acc.byName (acc.byName.foldl (TopTwo.track better) (none, none)) :=
  TopTwo.tops_foldl (List.Nodup.of_map _ h.nodup) h.ranks

theorem answer_eq_some {acc : Acc} {leaf : String} : acc.answer nearest = some leaf ↔
    acc.exact = false ∧ ∃ b, (acc.byName.foldl (TopTwo.track better) (none, none)).1 = some b ∧
      b.leaf = leaf ∧ ∀ c, (acc.byName.foldl (TopTwo.track better) (none, none)).2 = some c →
        ¬ Close nearest b.jaccard c.jaccard := by
  rw [Acc.answer]
  generalize acc.byName.foldl (TopTwo.track better) (none, none) = tops
  obtain ⟨first, second⟩ := tops
  cases hex : acc.exact with
  | true => simp
  | false =>
    cases first with
    | none => simp
    | some b => cases second <;> simp [and_comm]

theorem not_close_of_le (hm : Monotone nearest) {a b c : ℚ} (h : ¬ Close nearest a b)
    (hle : c ≤ b) : ¬ Close nearest a c := by
  rw [Close, not_lt] at h ⊢
  exact h.trans (hm (by linarith))

theorem leader_of_correction (hm : Monotone nearest) {leaf : String}
    (h : correction nearest minJaccard rows w = some leaf) :
    Leader nearest minJaccard rows w leaf := by
  have hs := scanned nearest minJaccard w rows
  rw [correction] at h
  generalize rows.foldl (Acc.visit nearest minJaccard w) ⟨false, []⟩ = acc at hs h
  obtain ⟨hex, b, hb, rfl, hsecond⟩ := answer_eq_some.mp h
  obtain ⟨hbmem, hbest⟩ := hs.tops.best b hb
  obtain ⟨sig, hsig, hnamed, hle, hlower, hjac⟩ := hs.key hbmem
  refine ⟨⟨sig, hsig, by rw [hnamed]; rfl⟩, ?_, ?_, ?_⟩
  · intro sig' hsig' heq
    have htrue := hs.exact_iff.mpr ⟨sig', hsig', heq⟩
    rw [hex] at htrue
    cases htrue
  · rw [← hjac, hnamed]
    exact hle
  · intro sig' hsig' hne hle'
    obtain ⟨e, he, hel⟩ := List.mem_map.mp (hs.complete hex sig' hsig' hle')
    obtain ⟨_, _, _, _, hel', hej⟩ := hs.key he
    have heb : e ≠ b := fun heq => hne (by rw [← hel, heq, hlower])
    have hsim : similarity nearest w sig' = e.jaccard := by
      rw [hej, nameSimilarity, ← hel', hel]
      rfl
    rw [hsim, ← hjac]
    have hbe := (hbest e he).resolve_left heb
    refine ⟨jaccard_le_of_better hbe, ?_⟩
    cases hc : (acc.byName.foldl (TopTwo.track better) (none, none)).2 with
    | none => exact absurd (hs.tops.alone b hb hc e he) heb
    | some c =>
      have hce : e.jaccard ≤ c.jaccard := by
        cases (hs.tops.second b c hb hc).2.2 e he heb with
        | inl heq => exact (congrArg Named.jaccard heq).le
        | inr hbetter => exact jaccard_le_of_better hbetter
      exact not_close_of_le hm (hsecond c hc) hce

theorem correction_of_leader {leaf : String} (h : Leader nearest minJaccard rows w leaf) :
    ∃ found, correction nearest minJaccard rows w = some found := by
  have hs := scanned nearest minJaccard w rows
  rw [correction]
  generalize rows.foldl (Acc.visit nearest minJaccard w) ⟨false, []⟩ = acc at hs ⊢
  have hex : acc.exact = false := by
    rw [← Bool.not_eq_true, hs.exact_iff]
    rintro ⟨sig, hsig, heq⟩
    exact h.notExact sig hsig heq
  obtain ⟨sig, hsig, hleaf⟩ := h.stored
  have hsim : similarity nearest w sig = nameSimilarity nearest w leaf := by
    rw [nameSimilarity, ← hleaf]
    rfl
  obtain ⟨e, he, hel⟩ := List.mem_map.mp (hs.complete hex sig hsig (hsim ▸ h.clears))
  obtain ⟨_, _, _, _, hel', hej⟩ := hs.key he
  have hlower : e.lower = toAsciiLowercase leaf := by
    rw [hel, ← hleaf]
    rfl
  have hjac : e.jaccard = nameSimilarity nearest w leaf := by
    rw [hej, nameSimilarity, nameSimilarity, ← hel', hlower]
  cases hb : (acc.byName.foldl (TopTwo.track better) (none, none)).1 with
  | none =>
    rw [hs.tops.none_iff.mp hb] at he
    exact absurd he List.not_mem_nil
  | some b =>
    refine ⟨b.leaf, answer_eq_some.mpr ⟨hex, b, hb, rfl, fun c hc => ?_⟩⟩
    obtain ⟨hbmem, hbest⟩ := hs.tops.best b hb
    obtain ⟨hcmem, hcb, hcall⟩ := hs.tops.second b c hb hc
    -- what an entry of another name is to the leader
    have hother : ∀ x ∈ acc.byName, x ≠ e →
        x.jaccard ≤ e.jaccard ∧ ¬ Close nearest e.jaccard x.jaccard := by
      intro x hx hne
      obtain ⟨sig', hsig', hnamed, hle, hxl, hxj⟩ := hs.key hx
      have hdiff : leafLower sig' ≠ toAsciiLowercase leaf := by
        intro heq
        refine hne (hs.eq_of_lower hx he ?_)
        rw [hnamed, hlower]
        exact heq
      have hahead := h.ahead sig' hsig' hdiff hle
      rw [hjac, hnamed]
      exact hahead
    by_cases hbe : b = e
    · rw [hbe]
      exact (hother c hcmem (hbe ▸ hcb)).2
    · have heb : e ≠ b := Ne.symm hbe
      have hbj : b.jaccard = e.jaccard := le_antisymm (hother b hbmem hbe).1
        (jaccard_le_of_better ((hbest e he).resolve_left heb))
      have hcj : c.jaccard = e.jaccard := by
        refine le_antisymm ?_ ?_
        · by_cases hce : c = e
          · rw [hce]
          · exact (hother c hcmem hce).1
        · cases hcall e he heb with
          | inl heq => rw [heq]
          | inr hbetter => exact jaccard_le_of_better hbetter
      rw [hbj, hcj]
      have hclose := (hother b hbmem hbe).2
      rwa [hbj] at hclose

/-! ### One pass for all tokens -/

variable {tokens : List String} {tok : String}

/-- No spelling of the token in another case comes before it. -/
def FirstSpelling (tokens : List String) (tok : String) : Prop :=
  tokens.find? (fun other => toAsciiLowercase other = toAsciiLowercase tok) = some tok

instance : Decidable (FirstSpelling tokens tok) := inferInstanceAs (Decidable (_ = _))

theorem byteLen_of_lower_eq {a b : String} (h : toAsciiLowercase a = toAsciiLowercase b) :
    byteLen a = byteLen b := by
  rw [← byteLen_toAsciiLowercase a, h, byteLen_toAsciiLowercase]

theorem FirstSpelling.mem (h : FirstSpelling tokens tok) : tok ∈ tokens :=
  List.mem_of_find?_eq_some h

theorem exists_firstSpelling (h : tok ∈ tokens) :
    ∃ first, FirstSpelling tokens first ∧ toAsciiLowercase first = toAsciiLowercase tok := by
  cases hfind : tokens.find? fun other => toAsciiLowercase other = toAsciiLowercase tok with
  | none =>
    have hnone := List.find?_eq_none.mp hfind tok h
    simp at hnone
  | some first =>
    have hsame : toAsciiLowercase first = toAsciiLowercase tok := by
      simpa using List.find?_some hfind
    refine ⟨first, ?_, hsame⟩
    rw [FirstSpelling, hsame]
    exact hfind

theorem firstSpelling_concat {last : String} : FirstSpelling (tokens ++ [last]) tok ↔
    FirstSpelling tokens tok ∨
      tok = last ∧ ∀ other ∈ tokens, toAsciiLowercase other ≠ toAsciiLowercase tok := by
  rw [FirstSpelling, FirstSpelling, List.find?_append]
  cases hfind : tokens.find? fun other => toAsciiLowercase other = toAsciiLowercase tok with
  | none =>
    have hnone := List.find?_eq_none.mp hfind
    have hbefore : ∀ other ∈ tokens, toAsciiLowercase other ≠ toAsciiLowercase tok := by
      simpa using hnone
    by_cases heq : tok = last
    · simp [← heq]
      exact hbefore
    · have hsome : ∀ x, [last].find?
          (fun other => toAsciiLowercase other = toAsciiLowercase tok) = some x → x = last :=
        fun x hx => List.mem_singleton.mp (List.mem_of_find?_eq_some hx)
      simp only [Option.none_or, heq, false_and, or_false, reduceCtorEq, iff_false]
      exact fun hx => heq (hsome tok hx)
  | some first =>
    have hsame : toAsciiLowercase first = toAsciiLowercase tok := by
      simpa using List.find?_some hfind
    have hmem := List.mem_of_find?_eq_some hfind
    rw [Option.some_or]
    exact ⟨Or.inl, fun h => h.elim id fun hlast => absurd hsame (hlast.2 first hmem)⟩

/-- The slots: the first spelling of every token that is long enough. -/
structure Slots (tokens : List String) (slots : List (String × String)) : Prop where
  mem_iff : ∀ e, e ∈ slots ↔
    e.2 = toAsciiLowercase e.1 ∧ 5 ≤ byteLen e.1 ∧ FirstSpelling tokens e.1
  nodup : (slots.map Prod.fst).Nodup

theorem slots_lowered (tokens : List String) : Slots tokens (lowered tokens) := by
  induction tokens using List.reverseRecOn with
  | nil => exact ⟨fun e => by simp [lowered, FirstSpelling], List.nodup_nil⟩
  | append_singleton tokens tok ih =>
    rw [lowered, List.foldl_append]
    change Slots (tokens ++ [tok]) (if byteLen tok < 5 then lowered tokens
      else if (lowered tokens).any (·.2 = toAsciiLowercase tok) then lowered tokens
      else lowered tokens ++ [(tok, toAsciiLowercase tok)])
    have hkept : ∀ e : String × String, (e.1 = tok →
        (∀ other ∈ tokens, toAsciiLowercase other ≠ toAsciiLowercase tok) → byteLen tok < 5) →
        (e ∈ lowered tokens ↔ e.2 = toAsciiLowercase e.1 ∧ 5 ≤ byteLen e.1 ∧
          FirstSpelling (tokens ++ [tok]) e.1) := by
      intro e hnew
      rw [ih.mem_iff e, firstSpelling_concat]
      refine and_congr_right fun _ => and_congr_right fun hlen => ?_
      refine (or_iff_left ?_).symm
      rintro ⟨heq, hbefore⟩
      have hshort := hnew heq (heq ▸ hbefore)
      rw [heq] at hlen
      omega
    split_ifs with hshort hany
    · exact ⟨fun e => hkept e fun _ _ => hshort, ih.nodup⟩
    · refine ⟨fun e => hkept e fun _ hbefore => ?_, ih.nodup⟩
      obtain ⟨e', he', heq⟩ := List.any_eq_true.mp hany
      have hold := (ih.mem_iff e').mp he'
      have hsame : toAsciiLowercase e'.1 = toAsciiLowercase tok := by
        rw [← hold.1]
        simpa using heq
      exact absurd hsame (hbefore e'.1 hold.2.2.mem)
    · have hbefore : ∀ other ∈ tokens, toAsciiLowercase other ≠ toAsciiLowercase tok := by
        intro other hother hsame
        obtain ⟨first, hfirst, hlower⟩ := exists_firstSpelling hother
        have hlen := byteLen_of_lower_eq (hlower.trans hsame)
        refine hany (List.any_eq_true.mpr ⟨(first, toAsciiLowercase first),
          (ih.mem_iff _).mpr ⟨rfl, by simp only; omega, hfirst⟩, ?_⟩)
        simpa using hlower.trans hsame
      have hfirst : FirstSpelling (tokens ++ [tok]) tok :=
        firstSpelling_concat.mpr (Or.inr ⟨rfl, hbefore⟩)
      refine ⟨fun e => ?_, ?_⟩
      · rw [List.mem_append, List.mem_singleton]
        by_cases heq : e.1 = tok
        · have hnot : e ∉ lowered tokens := fun he =>
            hbefore e.1 ((ih.mem_iff e).mp he).2.2.mem (congrArg toAsciiLowercase heq)
          obtain ⟨a, b⟩ := e
          obtain rfl : a = tok := heq
          simp only [hnot, false_or, Prod.mk.injEq, true_and]
          exact ⟨fun h => ⟨h, by omega, hfirst⟩, fun h => h.1⟩
        · have hne : e ≠ (tok, toAsciiLowercase tok) := fun h => heq (congrArg Prod.fst h)
          rw [or_iff_left hne]
          exact hkept e fun h => absurd h heq
      · rw [List.map_append, List.map_singleton]
        refine List.nodup_append.mpr ⟨ih.nodup, List.nodup_singleton _, ?_⟩
        intro a ha b hb hab
        obtain ⟨e, he, rfl⟩ := List.mem_map.mp ha
        rw [List.mem_singleton] at hb
        exact hbefore e.1 ((ih.mem_iff e).mp he).2.2.mem (congrArg toAsciiLowercase (hab.trans hb))

theorem foldl_map_slots {α β : Type*} (visit : α → β → β) (rows : List α) (slots : List β) :
    rows.foldl (fun slots a => slots.map (visit a)) slots =
      slots.map fun b => rows.foldl (fun b a => visit a b) b := by
  induction rows generalizing slots with
  | nil => exact (List.map_id slots).symm
  | cons a rows ih => rw [List.foldl_cons, ih, List.map_map]; rfl

theorem fuzzyCorrectSymbols_eq (nearest : ℚ → ℚ) (rows tokens : List String) (minJaccard : ℚ) :
    fuzzyCorrectSymbols nearest rows tokens minJaccard = (lowered tokens).filterMap fun t =>
      (correction nearest minJaccard rows t.2).map fun leaf => (t.1, leaf) := by
  have hslot : ∀ (t : String × String) (acc : Acc), rows.foldl (fun (e : (String × String) × Acc)
      sig => (e.1, Acc.visit nearest minJaccard e.1.2 e.2 sig)) (t, acc) =
      (t, rows.foldl (Acc.visit nearest minJaccard t.2) acc) := by
    intro t acc
    induction rows generalizing acc with
    | nil => rfl
    | cons sig rows ih => exact ih _
  rw [fuzzyCorrectSymbols, foldl_map_slots
    (fun sig (e : (String × String) × Acc) => (e.1, Acc.visit nearest minJaccard e.1.2 e.2 sig)),
    List.map_map, List.filterMap_map]
  refine List.filterMap_congr fun t _ => ?_
  simp only [Function.comp_apply, hslot]
  rfl

theorem mem_fuzzyCorrectSymbols {e : String × String} :
    e ∈ fuzzyCorrectSymbols nearest rows tokens minJaccard ↔
      5 ≤ byteLen e.1 ∧ FirstSpelling tokens e.1 ∧
        correction nearest minJaccard rows (toAsciiLowercase e.1) = some e.2 := by
  rw [fuzzyCorrectSymbols_eq, List.mem_filterMap]
  have hslots := slots_lowered tokens
  apply Iff.intro
  · rintro ⟨t, ht, hsome⟩
    obtain ⟨leaf, hleaf, rfl⟩ := Option.map_eq_some_iff.mp hsome
    obtain ⟨hlower, hlen, hfirst⟩ := (hslots.mem_iff t).mp ht
    exact ⟨hlen, hfirst, hlower ▸ hleaf⟩
  · rintro ⟨hlen, hfirst, hleaf⟩
    exact ⟨(e.1, toAsciiLowercase e.1), (hslots.mem_iff _).mpr ⟨rfl, hlen, hfirst⟩,
      Option.map_eq_some_iff.mpr ⟨e.2, hleaf, rfl⟩⟩

theorem corrected_eq_some {leaf : String} :
    corrected (fuzzyCorrectSymbols nearest rows tokens minJaccard) tok = some leaf ↔
      (tok, leaf) ∈ fuzzyCorrectSymbols nearest rows tokens minJaccard := by
  rw [corrected, Option.map_eq_some_iff]
  apply Iff.intro
  · rintro ⟨e, he, rfl⟩
    have hkey : e.1 = tok := by simpa using List.find?_some he
    have hmem := List.mem_reverse.mp (List.mem_of_find?_eq_some he)
    rwa [← hkey]
  · intro hmem
    cases hfind : (fuzzyCorrectSymbols nearest rows tokens minJaccard).reverse.find?
        (·.1 = tok) with
    | none =>
      have hnone := List.find?_eq_none.mp hfind (tok, leaf) (List.mem_reverse.mpr hmem)
      simp at hnone
    | some e =>
      have hkey : e.1 = tok := by simpa using List.find?_some hfind
      have he := List.mem_reverse.mp (List.mem_of_find?_eq_some hfind)
      have hleaf := (mem_fuzzyCorrectSymbols.mp hmem).2.2
      have hleaf' := (mem_fuzzyCorrectSymbols.mp he).2.2
      rw [hkey, hleaf] at hleaf'
      exact ⟨e, rfl, (Option.some.inj hleaf').symm⟩

theorem fuzzyCorrectSymbol_eq_some {leaf : String} :
    fuzzyCorrectSymbol nearest rows tok minJaccard = some leaf ↔ 5 ≤ byteLen tok ∧
      correction nearest minJaccard rows (toAsciiLowercase tok) = some leaf := by
  have hfirst : FirstSpelling [tok] tok := by simp [FirstSpelling]
  rw [fuzzyCorrectSymbol, corrected_eq_some, mem_fuzzyCorrectSymbols]
  exact and_congr_right fun _ => and_iff_right hfirst

end Fuzzy

/-! ### The batch and the single corrections -/

/-- What the batch correction promises. -/
structure BatchLaw (nearest : ℚ → ℚ) (s : SqliteStore) (rows tokens : List String)
    (minJaccard : ℚ) : Prop where
  agrees : ∀ tok ∈ tokens,
    corrected (fuzzyCorrectSymbols nearest rows tokens minJaccard) tok =
      fuzzyCorrectSymbol nearest rows tok minJaccard
  keys : ∀ e ∈ fuzzyCorrectSymbols nearest rows tokens minJaccard, e.1 ∈ tokens
  leaf : ∀ e ∈ fuzzyCorrectSymbols nearest rows tokens minJaccard,
    ∃ r, r ∈ s.nodes ∧ leafOf r.vname.signature = e.2
  similar : ∀ e ∈ fuzzyCorrectSymbols nearest rows tokens minJaccard,
    minJaccard ≤ nameSimilarity nearest (toAsciiLowercase e.1) e.2
  ahead : ∀ e ∈ fuzzyCorrectSymbols nearest rows tokens minJaccard, ∀ r, r ∈ s.nodes →
    leafLower r.vname.signature ≠ toAsciiLowercase e.2 →
      ¬ Close nearest (nameSimilarity nearest (toAsciiLowercase e.1) e.2)
        (similarity nearest (toAsciiLowercase e.1) r.vname.signature)
  notExact : ∀ e ∈ fuzzyCorrectSymbols nearest rows tokens minJaccard, ∀ r, r ∈ s.nodes →
    leafLower r.vname.signature ≠ toAsciiLowercase e.1

theorem SignatureScan.mem_iff {s : SqliteStore} (scan : SignatureScan s)
    (hcap : (s.nodes.rows.map fun r => r.vname.signature).toFinset.card ≤ 200000) {sig : String} :
    sig ∈ scan.rows ↔ ∃ r, r ∈ s.nodes ∧ r.vname.signature = sig := by
  have hsub : scan.rows.toFinset ⊆ (s.nodes.rows.map fun r => r.vname.signature).toFinset := by
    intro x hx
    obtain ⟨r, hr, rfl⟩ := scan.stored x (List.mem_toFinset.mp hx)
    exact List.mem_toFinset.mpr (List.mem_map.mpr ⟨r, hr, rfl⟩)
  have hcard : (s.nodes.rows.map fun r => r.vname.signature).toFinset.card ≤
      scan.rows.toFinset.card := by
    rw [List.toFinset_card_of_nodup scan.nodup, scan.length_eq, Nat.min_eq_right hcap]
  have heq := Finset.eq_of_subset_of_card_le hsub hcard
  rw [← List.mem_toFinset, heq, List.mem_toFinset, List.mem_map]
  rfl

/-- The batch keeps its promises exactly where every token that has a leader is the first of its
spellings, and the leaves below the threshold too are the margin behind the leader. -/
theorem fuzzyCorrectSymbols_iff (s : SqliteStore) (scan : SignatureScan s) (nearest : ℚ → ℚ)
    (tokens : List String) (minJaccard : ℚ) (hm : Monotone nearest)
    (hcap : (s.nodes.rows.map fun r => r.vname.signature).toFinset.card ≤ 200000) :
    BatchLaw nearest s scan.rows tokens minJaccard ↔
      ∀ tok ∈ tokens, 5 ≤ byteLen tok →
        ∀ leaf, Leader nearest minJaccard scan.rows (toAsciiLowercase tok) leaf →
          FirstSpelling tokens tok ∧
            ∀ sig ∈ scan.rows, leafLower sig ≠ toAsciiLowercase leaf →
              similarity nearest (toAsciiLowercase tok) sig < minJaccard →
                ¬ Close nearest (nameSimilarity nearest (toAsciiLowercase tok) leaf)
                  (similarity nearest (toAsciiLowercase tok) sig) := by
  have hstored := @SignatureScan.mem_iff s scan hcap
  apply Iff.intro
  · intro h tok htok hlen leaf hleader
    obtain ⟨found, hfound⟩ := correction_of_leader hleader
    have hsingle := fuzzyCorrectSymbol_eq_some.mpr ⟨hlen, hfound⟩
    have hmem := corrected_eq_some.mp ((h.agrees tok htok).trans hsingle)
    refine ⟨(mem_fuzzyCorrectSymbols.mp hmem).2.1, fun sig hsig hne hlow => ?_⟩
    obtain ⟨r, hr, rfl⟩ := hstored.mp hsig
    have hahead := h.ahead _ hmem r hr
    have hlead := leader_of_correction hm hfound
    by_cases hsame : toAsciiLowercase found = toAsciiLowercase leaf
    · have hfound' : leafLower r.vname.signature ≠ toAsciiLowercase found := hsame ▸ hne
      have hclear := hahead hfound'
      rw [nameSimilarity, hsame] at hclear
      exact hclear
    · -- two leaders are equally close
      obtain ⟨sig', hsig', hleaf'⟩ := hleader.stored
      have hother : leafLower sig' ≠ toAsciiLowercase found := by
        rw [leafLower, hleaf']
        exact Ne.symm hsame
      have hsim' : similarity nearest (toAsciiLowercase tok) sig' =
          nameSimilarity nearest (toAsciiLowercase tok) leaf := by
        rw [similarity, leafLower, hleaf']
        rfl
      have hle := (hlead.ahead sig' hsig' hother (hsim' ▸ hleader.clears)).1
      obtain ⟨sig'', hsig'', hfound''⟩ := hlead.stored
      have hsim'' : similarity nearest (toAsciiLowercase tok) sig'' =
          nameSimilarity nearest (toAsciiLowercase tok) found := by
        rw [similarity, leafLower, hfound'']
        rfl
      have hother' : leafLower sig'' ≠ toAsciiLowercase leaf := by
        rw [leafLower, hfound'']
        exact hsame
      have hge := (hleader.ahead sig'' hsig'' hother' (hsim'' ▸ hlead.clears)).1
      have heq : nameSimilarity nearest (toAsciiLowercase tok) found =
          nameSimilarity nearest (toAsciiLowercase tok) leaf :=
        le_antisymm (hsim'' ▸ hge) (hsim' ▸ hle)
      rw [← heq]
      refine hahead fun hlower => ?_
      have hsim : similarity nearest (toAsciiLowercase tok) r.vname.signature =
          nameSimilarity nearest (toAsciiLowercase tok) found :=
        congrArg (byteTrigramJaccard nearest (toAsciiLowercase tok)) hlower
      exact absurd hlow (not_lt.mpr (hsim ▸ hlead.clears))
  · intro h
    have hlead : ∀ e ∈ fuzzyCorrectSymbols nearest scan.rows tokens minJaccard,
        Leader nearest minJaccard scan.rows (toAsciiLowercase e.1) e.2 := fun e he =>
      leader_of_correction hm (mem_fuzzyCorrectSymbols.mp he).2.2
    refine ⟨?_, ?_, ?_, fun e he => (hlead e he).clears, ?_, ?_⟩
    · intro tok htok
      refine Option.ext fun leaf => ?_
      rw [corrected_eq_some, mem_fuzzyCorrectSymbols, fuzzyCorrectSymbol_eq_some]
      refine and_congr_right fun hlen => and_iff_right_of_imp fun hleaf => ?_
      exact (h tok htok hlen leaf (leader_of_correction hm hleaf)).1
    · exact fun e he => (mem_fuzzyCorrectSymbols.mp he).2.1.mem
    · intro e he
      obtain ⟨sig, hsig, hleaf⟩ := (hlead e he).stored
      obtain ⟨r, hr, rfl⟩ := hstored.mp hsig
      exact ⟨r, hr, hleaf⟩
    · intro e he r hr hne
      obtain ⟨hlen, hfirst, _⟩ := mem_fuzzyCorrectSymbols.mp he
      have hsig := hstored.mpr ⟨r, hr, rfl⟩
      by_cases hlow : similarity nearest (toAsciiLowercase e.1) r.vname.signature < minJaccard
      · exact (h e.1 hfirst.mem hlen e.2 (hlead e he)).2 _ hsig hne hlow
      · exact ((hlead e he).ahead _ hsig hne (not_lt.mp hlow)).2
    · intro e he r hr
      exact (hlead e he).notExact _ (hstored.mpr ⟨r, hr, rfl⟩)

def responseStore : SqliteStore where
  __ := SqliteStore.empty
  nodes := ⟨⟨[⟨1, ⟨"a", "", "a.py", "python", "class:HttpResponse"⟩, "class", "", none, none, false,
    .none, none⟩], by decide⟩, by decide⟩

def responseScan : SignatureScan responseStore where
  rows := ["class:HttpResponse"]
  nodup := by decide
  stored := by
    intro sig hsig
    rw [List.mem_singleton.mp hsig]
    exact ⟨_, List.mem_singleton.mpr rfl, rfl⟩
  length_eq := by decide

/-- A second spelling of a typo gets nothing from the batch. -/
theorem second_spelling_lost :
    ¬ BatchLaw id responseStore responseScan.rows ["htpresponse", "Htpresponse"] (6 / 10) :=
  fun h => absurd (h.agrees "Htpresponse" (by decide)) (by decide +kernel)

/-- A leaf below the threshold is not looked at, however close behind the leader. -/
example : fuzzyCorrectSymbols id ["fn:serializeHttpResponses", "fn:serializeHttpResponse42"]
      ["serializehttpresponse"] (92 / 100) = [("serializehttpresponse", "serializeHttpResponses")] ∧
    Close id (similarity id "serializehttpresponse" "fn:serializeHttpResponses")
      (similarity id "serializehttpresponse" "fn:serializeHttpResponse42") := by
  decide +kernel

theorem fuzzyCorrectSymbols_iff_response :
    BatchLaw id responseStore responseScan.rows ["htpresponse", "Htpresponse"] (6 / 10) ↔
      ∀ tok ∈ ["htpresponse", "Htpresponse"], 5 ≤ byteLen tok →
        ∀ leaf, Leader id (6 / 10) responseScan.rows (toAsciiLowercase tok) leaf →
          FirstSpelling ["htpresponse", "Htpresponse"] tok ∧
            ∀ sig ∈ responseScan.rows, leafLower sig ≠ toAsciiLowercase leaf →
              similarity id (toAsciiLowercase tok) sig < 6 / 10 →
                ¬ Close id (nameSimilarity id (toAsciiLowercase tok) leaf)
                  (similarity id (toAsciiLowercase tok) sig) :=
  fuzzyCorrectSymbols_iff responseStore responseScan id ["htpresponse", "Htpresponse"] (6 / 10)
    monotone_id (by decide)

end Travsr.Store
