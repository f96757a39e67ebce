import Mathlib.Data.List.Induction
import Travsr.Lib.Runs
import Travsr.PluginHost.ParseCache

namespace Travsr.PluginHost

open Travsr.Core Travsr.Analysis Relational

variable {D T : Type}

/-! ### What the cache holds -/

namespace ParseCache

variable [DecidableEq D]

theorem mem_remove {c : ParseCache D} {key : CacheKey D} {e : Cached D}
    (he : e ∈ (c.remove key).store) : e ∈ c.store ∧ e.key ≠ key := by
  unfold remove at he
  cases hf : c.store.find? key with
  | none =>
    rw [hf] at he
    exact ⟨he, fun hk => Table.find?_eq_none.mp hf ⟨e, he, hk⟩⟩
  | some e' =>
    rw [hf] at he
    exact Table.mem_deleteWhere.mp he

theorem mem_evict {key : CacheKey D} {cost : Nat} {c : ParseCache D}
    {queue : List (CacheKey D)} {e : Cached D} (he : e ∈ (evict key cost c queue).1.store) :
    e ∈ c.store := by
  induction queue generalizing c with
  | nil => exact he
  | cons oldest rest ih =>
    unfold evict at he
    split at he
    · split at he
      · exact ih he
      · exact (mem_remove (ih he)).1
    · exact he

theorem insert_of_fits {c : ParseCache D} {key : CacheKey D} {resp : ParseResponse}
    (hfit : PluginHost.approxBytes resp ≤ MAX_CACHE_BYTES) :
    (c.insert key resp).store =
      (evict key (PluginHost.approxBytes resp) (c.remove key)
        c.insertionOrder).1.store.insertIgnore ⟨key, resp⟩ := by
  have hnot : ¬ MAX_CACHE_BYTES < PluginHost.approxBytes resp := by omega
  simp only [insert, if_neg hnot]

theorem mem_insert {c : ParseCache D} {key : CacheKey D} {resp : ParseResponse} {e : Cached D}
    (he : e ∈ (c.insert key resp).store) : e ∈ c.store ∨ e = ⟨key, resp⟩ := by
  by_cases hfit : PluginHost.approxBytes resp ≤ MAX_CACHE_BYTES
  · rw [insert_of_fits hfit] at he
    rcases Table.mem_insertIgnore.mp he with hold | hnew
    · exact .inl (mem_remove (mem_evict hold)).1
    · exact .inr hnew.1
  · have hbig : MAX_CACHE_BYTES < PluginHost.approxBytes resp := by omega
    simp only [insert, if_pos hbig] at he
    exact .inl he

theorem get_insert {c : ParseCache D} {key : CacheKey D} {resp : ParseResponse}
    (hfit : PluginHost.approxBytes resp ≤ MAX_CACHE_BYTES) :
    (c.insert key resp).get key = some resp := by
  have hnone : (evict key (PluginHost.approxBytes resp) (c.remove key)
      c.insertionOrder).1.store.find? key = none := by
    apply Table.find?_eq_none.mpr
    intro ⟨e, he, hk⟩
    exact (mem_remove (mem_evict he)).2 hk
  rw [get, insert_of_fits hfit, Table.find?_insertIgnore, if_pos rfl, hnone]
  rfl

theorem mem_of_get {c : ParseCache D} {key : CacheKey D} {resp : ParseResponse}
    (h : c.get key = some resp) : ∃ e ∈ c.store, e.key = key ∧ e.response = resp := by
  obtain ⟨e, he, hr⟩ := Option.map_eq_some_iff.mp h
  obtain ⟨hmem, hkey⟩ := Table.mem_of_find? he
  exact ⟨e, hmem, hkey, hr⟩

end ParseCache

/-! ### One call -/

variable (h : Host D T) (plugins : Plugins T)

/-- The file has a plugin. -/
def HasPlugin (c : Call) : Prop :=
  ∃ bytes, c.contents = some bytes ∧ (h.byExt (dispatchExt h c.absPath bytes)).isSome

def isProse (c : Call) : Bool :=
  c.contents.any (fun bytes => (h.byExt (dispatchExt h c.absPath bytes)).isNone) &&
    decide (Language.fromExtension (extOf c.absPath) = some .markdown)

def SameFile (a b : Call) : Prop := a.absPath = b.absPath ∧ a.vnamePath = b.vnamePath

/-- What the markdown emitter makes of a file under the patterns configured for another path. -/
def proseUnder (corpus : String) (docExcludes : List String) (c : Call) (configPath : String) :
    Option (Except String ParseOutput) :=
  c.contents.map
    (h.markdown corpus c.absPath c.vnamePath (docExcludes ++ h.docsExclude configPath))

def PluginIndexer.answer [DecidableEq D] (ix : PluginIndexer D) (c : Call) : Except IndexError ParseOutput :=
  (ix.parseFileWithVname h plugins c).1

def PluginIndexer.step [DecidableEq D] (ix : PluginIndexer D) (c : Call) : PluginIndexer D :=
  (ix.parseFileWithVname h plugins c).2

variable {h plugins}

def keyOf (h : Host D T) (bytes : List UInt8) : CacheKey D := ⟨h.version, h.sha256 bytes⟩

theorem keyOf_injective (hsha : Function.Injective h.sha256) {s t : List UInt8}
    (he : keyOf h s = keyOf h t) : s = t := by
  simp only [keyOf, CacheKey.mk.injEq, true_and] at he
  exact hsha he

theorem parse_unreadable [DecidableEq D] {ix : PluginIndexer D} {c : Call} (hc : c.contents = none) :
    ix.parseFileWithVname h plugins c =
      (.error (.parse c.absPath ("hashing " ++ c.absPath)), ix) := by
  simp only [PluginIndexer.parseFileWithVname, hc]

theorem parse_hit [DecidableEq D] {ix : PluginIndexer D} {c : Call} {bytes : List UInt8} {resp : ParseResponse}
    (hc : c.contents = some bytes) (hit : ix.cache.get (keyOf h bytes) = some resp) :
    ix.parseFileWithVname h plugins c = (.ok (responseToOutput resp), ix) := by
  simp only [keyOf] at hit
  simp only [PluginIndexer.parseFileWithVname, hc, hit]

theorem parse_miss [DecidableEq D] {ix : PluginIndexer D} {c : Call} {bytes : List UInt8}
    (hc : c.contents = some bytes) (miss : ix.cache.get (keyOf h bytes) = none) :
    ix.parseFileWithVname h plugins c =
      match dispatch h plugins ix.corpus c bytes with
      | .error e => (.error e, ix)
      | .ok none => ix.fallback h c bytes
      | .ok (some resp) =>
        (.ok (responseToOutput resp), { ix with cache := ix.cache.insert (keyOf h bytes) resp }) := by
  simp only [keyOf] at miss
  simp only [PluginIndexer.parseFileWithVname, hc, miss]
  rfl

theorem dispatch_some {corpus : String} {c : Call} {bytes : List UInt8} {resp : ParseResponse}
    (hd : dispatch h plugins corpus c bytes = .ok (some resp)) :
    ∃ t, h.byExt (dispatchExt h c.absPath bytes) = some t ∧
      plugins t (request corpus c) bytes = .ok resp := by
  unfold dispatch at hd
  cases ht : h.byExt (dispatchExt h c.absPath bytes) with
  | none => simp [ht] at hd
  | some t =>
    rw [ht] at hd
    simp only at hd
    cases hp : plugins t (request corpus c) bytes with
    | error e =>
      rw [hp] at hd
      cases hd
    | ok r =>
      rw [hp] at hd
      cases hd
      exact ⟨t, rfl, hp⟩

theorem dispatch_sameFile {corpus : String} {a b : Call} {bytes : List UInt8}
    (hs : SameFile a b) : dispatch h plugins corpus a bytes = dispatch h plugins corpus b bytes := by
  simp only [dispatch, request, hs.1, hs.2]

theorem dispatch_none {corpus : String} {c : Call} {bytes : List UInt8}
    (hn : h.byExt (dispatchExt h c.absPath bytes) = none) :
    dispatch h plugins corpus c bytes = .ok none := by
  simp only [dispatch, hn]

theorem byExt_of_dispatch_none {corpus : String} {c : Call} {bytes : List UInt8}
    (hd : dispatch h plugins corpus c bytes = .ok none) :
    h.byExt (dispatchExt h c.absPath bytes) = none := by
  cases ht : h.byExt (dispatchExt h c.absPath bytes) with
  | none => rfl
  | some t =>
    simp only [dispatch, ht] at hd
    cases hp : plugins t (request corpus c) bytes <;> simp [hp, Except.map] at hd

theorem isProse_iff {c : Call} {bytes : List UInt8} (hc : c.contents = some bytes) :
    isProse h c = true ↔ h.byExt (dispatchExt h c.absPath bytes) = none ∧
      Language.fromExtension (extOf c.absPath) = some .markdown := by
  simp [isProse, hc]

theorem fallback_prose {ix : PluginIndexer D} {c : Call} {bytes : List UInt8}
    (hl : Language.fromExtension (extOf c.absPath) = some .markdown) :
    ix.fallback h c bytes =
      (parseError c.absPath (h.markdown ix.corpus c.absPath c.vnamePath
          (ix.docExcludes ++ ix.configDocExcludes.getD (h.docsExclude c.absPath)) bytes),
        { ix with
          configDocExcludes := some (ix.configDocExcludes.getD (h.docsExclude c.absPath)) }) := by
  have hdata : (some Language.markdown).any Language.isDataFormat = false := by decide
  simp only [PluginIndexer.fallback, hl, hdata, Bool.false_eq_true, if_false, if_true,
    PluginIndexer.docExcludesFor]

theorem fallback_other {ix ix' : PluginIndexer D} {c : Call} {bytes : List UInt8}
    (hl : Language.fromExtension (extOf c.absPath) ≠ some .markdown)
    (hcorpus : ix.corpus = ix'.corpus) :
    (ix.fallback h c bytes).1 = (ix'.fallback h c bytes).1 ∧ (ix.fallback h c bytes).2 = ix := by
  simp only [PluginIndexer.fallback, if_neg hl, hcorpus]
  split_ifs <;> exact ⟨rfl, rfl⟩

theorem answer_new_of_dispatch [DecidableEq D] {corpus : String} {docExcludes : List String} {c : Call}
    {bytes : List UInt8} {resp : ParseResponse} (hc : c.contents = some bytes)
    (hd : dispatch h plugins corpus c bytes = .ok (some resp)) :
    (PluginIndexer.new corpus docExcludes : PluginIndexer D).answer h plugins c =
      .ok (responseToOutput resp) := by
  rw [PluginIndexer.answer, parse_miss hc rfl]
  simp only [PluginIndexer.new, hd]

/-! ### The indexer after a sequence of calls -/

variable (h plugins)

/-- Every held response is a plugin's response to an earlier call on the same contents, and the
configured patterns are those of the first markdown file. -/
structure Sound (corpus : String) (docExcludes : List String) (pre : List Call)
    (ix : PluginIndexer D) : Prop where
  corpus_eq : ix.corpus = corpus
  docExcludes_eq : ix.docExcludes = docExcludes
  held : ∀ e ∈ ix.cache.store, ∃ a ∈ pre, ∃ bytes, a.contents = some bytes ∧
    e.key = keyOf h bytes ∧ dispatch h plugins corpus a bytes = .ok (some e.response)
  config : ix.configDocExcludes = (pre.find? (isProse h)).map fun a => h.docsExclude a.absPath

def HitsAgree [DecidableEq D] (corpus : String) (ix : PluginIndexer D) (c : Call) : Prop :=
  ∀ bytes resp, c.contents = some bytes → ix.cache.get (keyOf h bytes) = some resp →
    dispatch h plugins corpus c bytes = .ok (some resp)

variable {h plugins}

theorem sound_new (h : Host D T) (plugins : Plugins T) (corpus : String) (docExcludes : List String) :
    Sound h plugins corpus docExcludes [] (PluginIndexer.new corpus docExcludes) where
  corpus_eq := rfl
  docExcludes_eq := rfl
  held e he := absurd he (Table.not_mem_empty e)
  config := rfl

theorem Sound.mono {corpus : String} {docExcludes : List String} {pre : List Call} {c : Call}
    {ix : PluginIndexer D} (hs : Sound h plugins corpus docExcludes pre ix)
    (hc : isProse h c = false) : Sound h plugins corpus docExcludes (pre ++ [c]) ix where
  corpus_eq := hs.corpus_eq
  docExcludes_eq := hs.docExcludes_eq
  held e he := by
    obtain ⟨a, ha, rest⟩ := hs.held e he
    exact ⟨a, List.mem_append_left _ ha, rest⟩
  config := by
    rw [hs.config, List.find?_append]
    simp [hc]

variable [DecidableEq D]

theorem HitsAgree.miss {corpus : String} {ix : PluginIndexer D} {c : Call} {bytes : List UInt8}
    (hh : HitsAgree h plugins corpus ix c) (hc : c.contents = some bytes)
    (hn : h.byExt (dispatchExt h c.absPath bytes) = none) :
    ix.cache.get (keyOf h bytes) = none := by
  cases hg : ix.cache.get (keyOf h bytes) with
  | none => rfl
  | some resp =>
    have hd := hh bytes resp hc hg
    rw [dispatch_none hn] at hd
    cases hd

theorem Sound.step {corpus : String} {docExcludes : List String} {pre : List Call} {c : Call}
    {ix : PluginIndexer D} (hs : Sound h plugins corpus docExcludes pre ix)
    (hh : HitsAgree h plugins corpus ix c) :
    Sound h plugins corpus docExcludes (pre ++ [c]) (ix.step h plugins c) := by
  unfold PluginIndexer.step
  cases hc : c.contents with
  | none =>
    rw [parse_unreadable hc]
    exact hs.mono (by simp [isProse, hc])
  | some bytes =>
    cases hg : ix.cache.get (keyOf h bytes) with
    | some resp =>
      rw [parse_hit hc hg]
      obtain ⟨t, ht, _⟩ := dispatch_some (hh bytes resp hc hg)
      exact hs.mono (by simp [isProse, hc, ht])
    | none =>
      rw [parse_miss hc hg, hs.corpus_eq]
      cases ht : h.byExt (dispatchExt h c.absPath bytes) with
      | some t =>
        have hprose : isProse h c = false := by simp [isProse, hc, ht]
        have hkeep := hs.mono hprose
        cases hd : dispatch h plugins corpus c bytes with
        | error e => exact hkeep
        | ok found =>
          cases found with
          | none =>
            rw [byExt_of_dispatch_none hd] at ht
            cases ht
          | some resp =>
            show Sound h plugins corpus docExcludes (pre ++ [c])
              ⟨corpus, ix.cache.insert (keyOf h bytes) resp, ix.docExcludes, ix.configDocExcludes⟩
            refine ⟨rfl, hs.docExcludes_eq, fun e he => ?_, hkeep.config⟩
            rcases ParseCache.mem_insert he with hold | rfl
            · exact hkeep.held e hold
            · exact ⟨c, by simp, bytes, hc, rfl, hd⟩
      | none =>
        rw [dispatch_none ht]
        by_cases hl : Language.fromExtension (extOf c.absPath) = some .markdown
        · have hprose : isProse h c = true := (isProse_iff hc).mpr ⟨ht, hl⟩
          simp only [fallback_prose hl]
          refine ⟨hs.corpus_eq, hs.docExcludes_eq, fun e he => ?_, ?_⟩
          · obtain ⟨a, ha, rest⟩ := hs.held e he
            exact ⟨a, List.mem_append_left _ ha, rest⟩
          · rw [hs.config, List.find?_append]
            cases pre.find? (isProse h) with
            | none => simp [hprose]
            | some a => simp
        · simp only [(fallback_other hl rfl).2]
          exact hs.mono (by simp [isProse, hl])

theorem Sound.run {corpus : String} {docExcludes : List String} {calls : List Call}
    (hh : ∀ pre c post, calls = pre ++ c :: post → ∀ ix,
      Sound h plugins corpus docExcludes pre ix → HitsAgree h plugins corpus ix c) :
    ∀ pre post, calls = pre ++ post → Sound h plugins corpus docExcludes pre
      (Runs.run (PluginIndexer.step h plugins) (PluginIndexer.new corpus docExcludes) pre) := by
  intro pre
  induction pre using List.reverseRecOn with
  | nil => exact fun _ _ => sound_new h plugins corpus docExcludes
  | append_singleton pre c ih =>
    intro post hcalls
    have hcalls' : calls = pre ++ c :: post := by rw [hcalls, List.append_assoc]; rfl
    have hpre := ih (c :: post) hcalls'
    rw [Runs.run, List.foldl_append]
    exact hpre.step (hh pre c post hcalls' _ hpre)

/-! ### When a sequence of calls sees nothing of the cache -/

variable (h)

/-- Two files with one content have one path, unless the first has no plugin, and the first
markdown file's patterns do for the other markdown files. -/
structure Distinct (corpus : String) (docExcludes : List String) (calls : List Call) : Prop where
  copies : ∀ pre b post, calls = pre ++ b :: post → ∀ a ∈ pre, a.contents = b.contents →
    HasPlugin h a → SameFile a b
  prose : ∀ pre b post, calls = pre ++ b :: post → isProse h b = true →
    ∀ a, pre.find? (isProse h) = some a →
      proseUnder h corpus docExcludes b a.absPath = proseUnder h corpus docExcludes b b.absPath

variable {h}

theorem hitsAgree_of_copies (hsha : Function.Injective h.sha256) {corpus : String}
    {docExcludes : List String} {pre : List Call} {c : Call} {ix : PluginIndexer D}
    (hs : Sound h plugins corpus docExcludes pre ix)
    (hcopies : ∀ a ∈ pre, a.contents = c.contents → HasPlugin h a → SameFile a c) :
    HitsAgree h plugins corpus ix c := by
  intro bytes resp hc hg
  obtain ⟨e, he, hkey, hresp⟩ := ParseCache.mem_of_get hg
  obtain ⟨a, ha, bytes', ha', hkey', hd⟩ := hs.held e he
  have hbytes : bytes' = bytes := keyOf_injective hsha (hkey'.symm.trans hkey)
  subst hbytes
  obtain ⟨t, ht, _⟩ := dispatch_some hd
  have hsame := hcopies a ha (ha'.trans hc.symm) ⟨bytes', ha', by simp [ht]⟩
  rw [← dispatch_sameFile hsame, hd, hresp]

theorem Sound.answer_prose {corpus : String} {docExcludes : List String} {pre : List Call}
    {c : Call} {ix : PluginIndexer D} (hs : Sound h plugins corpus docExcludes pre ix)
    (hh : HitsAgree h plugins corpus ix c) (hprose : isProse h c = true) :
    (proseUnder h corpus docExcludes c (((pre.find? (isProse h)).map Call.absPath).getD
      c.absPath)).map (parseError c.absPath) = some (ix.answer h plugins c) := by
  cases hc : c.contents with
  | none => simp [isProse, hc] at hprose
  | some bytes =>
    obtain ⟨hn, hl⟩ := (isProse_iff hc).mp hprose
    have hpath : (ix.configDocExcludes.getD (h.docsExclude c.absPath)) =
        h.docsExclude (((pre.find? (isProse h)).map Call.absPath).getD c.absPath) := by
      rw [hs.config]
      cases pre.find? (isProse h) <;> rfl
    rw [PluginIndexer.answer, parse_miss hc (hh.miss hc hn), dispatch_none hn, fallback_prose hl,
      hs.corpus_eq, hs.docExcludes_eq, hpath, proseUnder, hc]
    rfl

theorem Sound.answer_other {corpus : String} {docExcludes : List String} {pre : List Call}
    {c : Call} {ix : PluginIndexer D} (hs : Sound h plugins corpus docExcludes pre ix)
    (hh : HitsAgree h plugins corpus ix c) (hprose : isProse h c = false) :
    ix.answer h plugins c =
      (PluginIndexer.new corpus docExcludes : PluginIndexer D).answer h plugins c := by
  cases hc : c.contents with
  | none => rw [PluginIndexer.answer, PluginIndexer.answer, parse_unreadable hc, parse_unreadable hc]
  | some bytes =>
    cases hg : ix.cache.get (keyOf h bytes) with
    | some resp =>
      rw [answer_new_of_dispatch hc (hh bytes resp hc hg), PluginIndexer.answer, parse_hit hc hg]
    | none =>
      rw [PluginIndexer.answer, PluginIndexer.answer, parse_miss hc hg, parse_miss hc rfl,
        hs.corpus_eq]
      cases hd : dispatch h plugins corpus c bytes with
      | error e => simp only [PluginIndexer.new, hd]
      | ok found =>
        cases found with
        | some resp => simp only [PluginIndexer.new, hd]
        | none =>
          have hn := byExt_of_dispatch_none hd
          have hl : Language.fromExtension (extOf c.absPath) ≠ some .markdown := by
            intro hl
            rw [(isProse_iff hc).mpr ⟨hn, hl⟩] at hprose
            cases hprose
          simp only [PluginIndexer.new, hd]
          exact (fallback_other hl hs.corpus_eq).1

theorem Distinct.transparent (hsha : Function.Injective h.sha256) {corpus : String}
    {docExcludes : List String} {calls : List Call} (hd : Distinct h corpus docExcludes calls)
    (plugins : Plugins T) :
    Runs.Every (PluginIndexer.step h plugins)
      (fun ix c => ix.answer h plugins c =
        (PluginIndexer.new corpus docExcludes : PluginIndexer D).answer h plugins c)
      (PluginIndexer.new corpus docExcludes) calls := by
  intro pre c post hcalls
  have hagree : ∀ pre c post, calls = pre ++ c :: post → ∀ ix : PluginIndexer D,
      Sound h plugins corpus docExcludes pre ix → HitsAgree h plugins corpus ix c :=
    fun pre c post hcalls ix hs => hitsAgree_of_copies hsha hs (hd.copies pre c post hcalls)
  have hs := Sound.run hagree pre (c :: post) hcalls
  have hh := hagree pre c post hcalls _ hs
  have hnew := sound_new h plugins corpus docExcludes
  have hhnew : HitsAgree h plugins corpus (PluginIndexer.new corpus docExcludes) c := by
    intro bytes resp _ hg
    cases hg
  cases hprose : isProse h c with
  | false => exact hs.answer_other hh hprose
  | true =>
    have hown := hs.answer_prose hh hprose
    have hfresh := hnew.answer_prose hhnew hprose
    cases hf : pre.find? (isProse h) with
    | none =>
      rw [hf] at hown
      exact Option.some.inj (hown.symm.trans hfresh)
    | some a =>
      have hsame := hd.prose pre c post hcalls hprose a hf
      rw [hf] at hown
      simp only [Option.map_some, Option.getD_some, hsame] at hown
      exact Option.some.inj (hown.symm.trans hfresh)

/-! ### Plugins that show the cache -/

/-- A plugin that answers one request on one content, and fails on all others. -/
def onlyFor (req : ParseRequest) (bytes : List UInt8) (resp : ParseResponse) : Plugins T :=
  fun _ req' bytes' => if req' = req ∧ bytes' = bytes then .ok resp else .error .phaseNotSupported

def failing : Plugins T := fun _ _ _ => .error .phaseNotSupported

def edgeResponse (src : NodeId) : ParseResponse := ⟨[], [⟨src, 0, .ffiCall, none, none⟩], []⟩

theorem approxBytes_edgeResponse (src : NodeId) : approxBytes (edgeResponse src) = 48 := rfl

theorem edgeResponse_injective {m n : NodeId}
    (he : responseToOutput (edgeResponse m) = responseToOutput (edgeResponse n)) : m = n := by
  have hedges := congrArg ParseOutput.edges he
  simpa [responseToOutput, edgeResponse] using hedges

omit [DecidableEq D] in
theorem fallback_keeps (ix : PluginIndexer D) (c : Call) (bytes : List UInt8) :
    (ix.fallback h c bytes).2.corpus = ix.corpus ∧ (ix.fallback h c bytes).2.cache = ix.cache := by
  unfold PluginIndexer.fallback
  simp only
  split_ifs <;> exact ⟨rfl, rfl⟩

omit [DecidableEq D] in
theorem dispatch_onlyFor {corpus : String} {req : ParseRequest} {bytes bytes' : List UInt8}
    {resp resp' : ParseResponse} {c : Call}
    (hd : dispatch h (onlyFor req bytes resp) corpus c bytes' = .ok (some resp')) :
    request corpus c = req ∧ bytes' = bytes ∧ resp' = resp := by
  obtain ⟨t, _, hp⟩ := dispatch_some hd
  unfold onlyFor at hp
  split at hp
  case isTrue hreq =>
    cases hp
    exact ⟨hreq.1, hreq.2, rfl⟩
  case isFalse => cases hp

/-- What a call can do to the cache: nothing, or insert what its plugin answered behind a miss. -/
theorem step_cases (plugins : Plugins T) (ix : PluginIndexer D) (c : Call) :
    (ix.step h plugins c).corpus = ix.corpus ∧
    ((ix.step h plugins c).cache = ix.cache ∨
      ∃ bytes resp, c.contents = some bytes ∧ ix.cache.get (keyOf h bytes) = none ∧
        dispatch h plugins ix.corpus c bytes = .ok (some resp) ∧
        (ix.step h plugins c).cache = ix.cache.insert (keyOf h bytes) resp) := by
  unfold PluginIndexer.step
  cases hc : c.contents with
  | none =>
    rw [parse_unreadable hc]
    exact ⟨rfl, .inl rfl⟩
  | some bytes =>
    cases hg : ix.cache.get (keyOf h bytes) with
    | some resp =>
      rw [parse_hit hc hg]
      exact ⟨rfl, .inl rfl⟩
    | none =>
      rw [parse_miss hc hg]
      cases hd : dispatch h plugins ix.corpus c bytes with
      | error e => exact ⟨rfl, .inl rfl⟩
      | ok found =>
        cases found with
        | none => exact ⟨(fallback_keeps ix c bytes).1, .inl (fallback_keeps ix c bytes).2⟩
        | some resp => exact ⟨rfl, .inr ⟨bytes, resp, rfl, hg, hd, rfl⟩⟩

def HoldsOnly (corpus : String) (resp : ParseResponse) (ix : PluginIndexer D) : Prop :=
  ix.corpus = corpus ∧ ∀ e ∈ ix.cache.store, e.response = resp

def HoldsFor (corpus : String) (key : CacheKey D) (resp : ParseResponse)
    (ix : PluginIndexer D) : Prop :=
  ix.corpus = corpus ∧ ix.cache.get key = some resp

theorem HoldsOnly.step {corpus : String} {req : ParseRequest} {bytes : List UInt8}
    {resp : ParseResponse} {ix : PluginIndexer D} (ho : HoldsOnly corpus resp ix) (c : Call) :
    HoldsOnly corpus resp (ix.step h (onlyFor req bytes resp) c) := by
  obtain ⟨hcorpus, hsame | ⟨bytes', resp', _, _, hd, hins⟩⟩ :=
    step_cases (h := h) (onlyFor req bytes resp) ix c
  · exact ⟨hcorpus.trans ho.1, hsame ▸ ho.2⟩
  · refine ⟨hcorpus.trans ho.1, fun e he => ?_⟩
    rw [hins] at he
    rcases ParseCache.mem_insert he with hold | rfl
    · exact ho.2 e hold
    · exact (dispatch_onlyFor hd).2.2

theorem HoldsFor.step {corpus : String} {req : ParseRequest} {bytes : List UInt8}
    {resp : ParseResponse} {ix : PluginIndexer D} (hf : HoldsFor corpus (keyOf h bytes) resp ix)
    (c : Call) : HoldsFor corpus (keyOf h bytes) resp (ix.step h (onlyFor req bytes resp) c) := by
  obtain ⟨hcorpus, hsame | ⟨bytes', resp', _, hmiss, hd, _⟩⟩ :=
    step_cases (h := h) (onlyFor req bytes resp) ix c
  · refine ⟨hcorpus.trans hf.1, ?_⟩
    rw [hsame]
    exact hf.2
  · rw [(dispatch_onlyFor hd).2.1, hf.2] at hmiss
    cases hmiss

theorem HoldsOnly.holdsFor {corpus : String} {bytes : List UInt8} {resp : ParseResponse}
    {ix : PluginIndexer D} {a : Call} (ho : HoldsOnly corpus resp ix)
    (ha : a.contents = some bytes) (ht : (h.byExt (dispatchExt h a.absPath bytes)).isSome)
    (hfit : approxBytes resp ≤ MAX_CACHE_BYTES) :
    HoldsFor corpus (keyOf h bytes) resp
      (ix.step h (onlyFor (request corpus a) bytes resp) a) := by
  unfold PluginIndexer.step
  cases hg : ix.cache.get (keyOf h bytes) with
  | some r =>
    rw [parse_hit ha hg]
    obtain ⟨e, he, _, hr⟩ := ParseCache.mem_of_get hg
    exact ⟨ho.1, by rw [hg, ← hr, ho.2 e he]⟩
  | none =>
    obtain ⟨t, ht⟩ := Option.isSome_iff_exists.mp ht
    have hd : dispatch h (onlyFor (request corpus a) bytes resp) ix.corpus a bytes =
        .ok (some resp) := by
      rw [ho.1]
      simp [dispatch, ht, onlyFor, Except.map]
    rw [parse_miss ha hg, hd]
    exact ⟨ho.1, ParseCache.get_insert hfit⟩

theorem holdsOnly_run {corpus : String} {req : ParseRequest} {bytes : List UInt8}
    {resp : ParseResponse} {ix : PluginIndexer D} (ho : HoldsOnly corpus resp ix)
    (calls : List Call) :
    HoldsOnly corpus resp (Runs.run (PluginIndexer.step h (onlyFor req bytes resp)) ix calls) := by
  induction calls generalizing ix with
  | nil => exact ho
  | cons c calls ih => exact ih (ho.step c)

theorem holdsFor_run {corpus : String} {req : ParseRequest} {bytes : List UInt8}
    {resp : ParseResponse} {ix : PluginIndexer D} (hf : HoldsFor corpus (keyOf h bytes) resp ix)
    (calls : List Call) :
    HoldsFor corpus (keyOf h bytes) resp
      (Runs.run (PluginIndexer.step h (onlyFor req bytes resp)) ix calls) := by
  induction calls generalizing ix with
  | nil => exact hf
  | cons c calls ih => exact ih (hf.step c)

theorem answer_new_other {corpus : String} {docExcludes : List String} {req : ParseRequest}
    {bytes : List UInt8} {resp : ParseResponse} {b : Call} (hb : b.contents = some bytes)
    (hreq : request corpus b ≠ req) :
    (PluginIndexer.new corpus docExcludes : PluginIndexer D).answer h (onlyFor req bytes resp) b =
      (PluginIndexer.new corpus docExcludes : PluginIndexer D).answer h failing b := by
  have hd : dispatch h (onlyFor req bytes resp) corpus b bytes =
      dispatch h failing corpus b bytes := by
    unfold dispatch
    cases h.byExt (dispatchExt h b.absPath bytes) with
    | none => rfl
    | some t => simp [onlyFor, failing, hreq]
  rw [PluginIndexer.answer, PluginIndexer.answer, parse_miss hb rfl, parse_miss hb rfl]
  simp only [PluginIndexer.new, hd]

/-- Whatever the plugins do, the calls are answered as by fresh indexers. -/
def Transparent (h : Host D T) (corpus : String) (docExcludes : List String)
    (calls : List Call) : Prop :=
  ∀ plugins : Plugins T, Runs.Every (PluginIndexer.step h plugins)
    (fun ix c => ix.answer h plugins c =
      (PluginIndexer.new corpus docExcludes : PluginIndexer D).answer h plugins c)
    (PluginIndexer.new corpus docExcludes) calls

theorem Transparent.copies {corpus : String} {docExcludes : List String} {calls : List Call}
    (ht : Transparent h corpus docExcludes calls) {pre post : List Call} {b : Call}
    (hcalls : calls = pre ++ b :: post) {a : Call} (ha : a ∈ pre)
    (hsame : a.contents = b.contents) (hplugin : HasPlugin h a) : SameFile a b := by
  obtain ⟨bytes, hbytes, hext⟩ := hplugin
  have hb : b.contents = some bytes := hsame.symm.trans hbytes
  by_contra hdiff
  have hreq : request corpus b ≠ request corpus a := by
    intro he
    simp only [request, ParseRequest.mk.injEq] at he
    exact hdiff ⟨he.1.symm, he.2.1.symm⟩
  -- an edge that no fresh indexer answers for the second file
  obtain ⟨src, hsrc⟩ : ∃ src, Except.ok (responseToOutput (edgeResponse src)) ≠
      (PluginIndexer.new corpus docExcludes : PluginIndexer D).answer h failing b := by
    by_contra hall
    simp only [not_exists, ne_eq, not_not] at hall
    have hone : (0 : NodeId) = 1 :=
      edgeResponse_injective (Except.ok.inj ((hall 0).trans (hall 1).symm))
    cases hone
  obtain ⟨p1, p2, rfl⟩ := List.append_of_mem ha
  have hstart : HoldsOnly corpus (edgeResponse src)
      (PluginIndexer.new corpus docExcludes : PluginIndexer D) :=
    ⟨rfl, fun e he => absurd he (Table.not_mem_empty e)⟩
  let plugins : Plugins T := onlyFor (request corpus a) bytes (edgeResponse src)
  have hfirst : HoldsOnly corpus (edgeResponse src)
      (Runs.run (PluginIndexer.step h plugins) (PluginIndexer.new corpus docExcludes) p1) :=
    holdsOnly_run hstart p1
  have hfit : approxBytes (edgeResponse src) ≤ MAX_CACHE_BYTES := by
    rw [approxBytes_edgeResponse]
    decide
  have hafter := hfirst.holdsFor hbytes hext hfit
  have hheld : HoldsFor corpus (keyOf h bytes) (edgeResponse src)
      (Runs.run (PluginIndexer.step h plugins) (PluginIndexer.new corpus docExcludes)
        (p1 ++ a :: p2)) := by
    rw [Runs.run, List.foldl_append]
    exact holdsFor_run hafter p2
  have hanswer : PluginIndexer.answer h plugins _ b = _ := ht plugins _ b post hcalls
  have hown : PluginIndexer.answer h plugins _ b = _ := congrArg Prod.fst (parse_hit hb hheld.2)
  exact hsrc (hown.symm.trans (hanswer.trans (answer_new_other hb hreq)))

theorem parseError_injective (path : String) : Function.Injective (parseError path) := by
  intro x y he
  unfold parseError at he
  cases x <;> cases y <;> simp_all [Except.mapError]

theorem Transparent.prose {corpus : String} {docExcludes : List String} {calls : List Call}
    (ht : Transparent h corpus docExcludes calls) {pre post : List Call} {b : Call}
    (hcalls : calls = pre ++ b :: post) (hprose : isProse h b = true) {a : Call}
    (hfind : pre.find? (isProse h) = some a) :
    proseUnder h corpus docExcludes b a.absPath = proseUnder h corpus docExcludes b b.absPath := by
  have hagree : ∀ pre c, ∀ ix : PluginIndexer D,
      Sound h failing corpus docExcludes pre ix → HitsAgree h failing corpus ix c := by
    intro pre c ix hs bytes resp _ hg
    obtain ⟨e, he, _, _⟩ := ParseCache.mem_of_get hg
    obtain ⟨a, _, bytes', _, _, hd⟩ := hs.held e he
    obtain ⟨t, _, hp⟩ := dispatch_some hd
    cases hp
  have hs := Sound.run (fun pre c _ _ ix => hagree pre c ix) pre (b :: post) hcalls
  have hown := hs.answer_prose (hagree pre b _ hs) hprose
  have hnew := sound_new h failing corpus docExcludes
  have hfresh := hnew.answer_prose (hagree [] b _ hnew) hprose
  rw [ht failing pre b post hcalls, ← hfresh, hfind] at hown
  simp only [Option.map_some, Option.getD_some, List.find?_nil, Option.map_none,
    Option.getD_none] at hown
  exact Option.map_injective (parseError_injective b.absPath) hown

/-- Whatever the plugins do, a sequence of calls sees nothing of the cache exactly when no two of
its files, the first of them one with a plugin, agree in their contents but not in their paths, and
the `docs.exclude` patterns of its first markdown file do for the others. -/
theorem transparent_iff (hsha : Function.Injective h.sha256) (corpus : String)
    (docExcludes : List String) (calls : List Call) :
    Transparent h corpus docExcludes calls ↔ Distinct h corpus docExcludes calls := by
  constructor
  · intro ht
    exact ⟨fun pre b post hcalls a ha => ht.copies hcalls ha,
      fun pre b post hcalls hp a => ht.prose hcalls hp⟩
  · exact fun hd plugins => hd.transparent hsha plugins

/-- A host whose digest is the contents themselves, with a plugin for Python. -/
def pythonHost : Host (List UInt8) Unit where
  version := "0.1.0"
  sha256 := id
  byExt ext := if ext = "py" then some () else none
  headerIsCxx _ := false
  docsExclude _ := []
  dataFormat _ _ _ _ := .ok .default
  markdown _ _ _ _ _ := .ok .default

/-- The empty `__init__.py` of a package. -/
def initPy (package : String) : Call :=
  ⟨"/repo/" ++ package ++ "/__init__.py", package ++ "/__init__.py", some []⟩

theorem transparent_iff_initPy :
    Transparent pythonHost "acme" [] [initPy "a", initPy "a"] ↔
      Distinct pythonHost "acme" [] [initPy "a", initPy "a"] :=
  transparent_iff Function.injective_id "acme" [] [initPy "a", initPy "a"]

def fileNodes : Plugins Unit := fun _ req _ =>
  .ok ⟨[⟨0, ⟨req.corpus, "", req.vnamePath, "python", "file"⟩, "file", "", none, none, .none⟩],
    [], []⟩

/-- Of two empty files the second is answered with the node of the first. -/
theorem second_empty_file_takes_first_path :
    ¬ (∀ (h : Host (List UInt8) Unit) (corpus : String) (docExcludes : List String)
      (calls : List Call), Function.Injective h.sha256 →
        Transparent h corpus docExcludes calls) := by
  intro hall
  have hanswer : PluginIndexer.answer pythonHost fileNodes _ (initPy "b") = _ :=
    hall pythonHost "acme" [] [initPy "a", initPy "b"] Function.injective_id fileNodes
      [initPy "a"] (initPy "b") [] rfl
  have hpaths := congrArg
    (fun r => r.toOption.map fun out => out.nodes.map fun n => n.vname.path) hanswer
  exact absurd hpaths (by decide +kernel)

end Travsr.PluginHost
