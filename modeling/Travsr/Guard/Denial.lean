import Travsr.Guard.Policy
import Travsr.Core.Corpus

namespace Travsr.Guard

open Travsr.Core Core.Text Core.Ident Travsr.Store

/-! ### What a denial rests on -/

/-- In a repository with the graph, the guard decides on a content search for the pattern. -/
structure DecidesOn (s : SqliteStore) (term : String) (input : HookInput) (repo : Repo) : Prop where
  graph : ∃ db, repo.db = some (some db) ∧ db.store = s
  search : ∃ request via, classify input = some request ∧
    (candidates input request).find? (fun r => (redirectFor ⟨repo.root, s⟩ input.cwd r).isSome) =
      some (.content (some term) via)

/-- A search for the pattern is denied only where a node's own name is the symbol. -/
def DeniedByNameOnly (s : SqliteStore) (term : String) : Prop :=
  ∀ clock input mode repo, DecidesOn s term input repo →
    (Policy.decide clock input mode (some repo)).1.blocks = true →
      ∃ symbol, asSymbol term = some symbol ∧
        ∃ r ∈ s.nodes.rows, leafOf r.vname.signature = symbol

variable {s : SqliteStore} {term symbol : String}

theorem asSymbol_some (h : asSymbol term = some symbol) :
    symbol = trim term ∧ 3 ≤ byteLen symbol ∧
      ∀ c ∈ symbol.toList, c.isAlphanum = true ∨ c = '_' ∨ c = '.' ∨ c = ':' := by
  unfold asSymbol at h
  simp only at h
  split_ifs at h with hlen
  cases hlist : (trim term).toList with
  | nil =>
    rw [hlist] at h
    simp at h
  | cons first rest =>
    rw [hlist] at h
    simp only at h
    split_ifs at h with hfirst hall
    have heq : trim term = symbol := Option.some.inj h
    refine ⟨heq.symm, by rw [← heq]; omega, ?_⟩
    rw [← heq, hlist]
    intro c hc
    have hok := List.all_eq_true.mp hall c hc
    simp only [Bool.or_eq_true, decide_eq_true_eq] at hok
    rcases hok with ((hword | hunder) | hdot) | hcolon
    · exact Or.inl hword
    · exact Or.inr (Or.inl hunder)
    · exact Or.inr (Or.inr (Or.inl hdot))
    · exact Or.inr (Or.inr (Or.inr hcolon))

theorem percent_not_mem (h : asSymbol term = some symbol) : '%' ∉ symbol.toList := by
  intro hmem
  have hchar := (asSymbol_some h).2.2 '%' hmem
  revert hchar
  decide

theorem search_ne_nil (h : asSymbol term = some symbol) :
    searchNodesByNameExact s symbol ≠ [] ↔
      ∃ r ∈ s.nodes.rows, r.kind ≠ "doc-chunk" ∧ NamedAlike symbol r := by
  rw [searchNodesByNameExact_ne_nil]
  refine exists_congr fun r => and_congr_right fun _ => ?_
  rw [nameMatchBoundary_iff (percent_not_mem h)]
  exact and_comm

variable {index : Index} {cwd : Option String} {via : String}

theorem redirectFor_none (h : asSymbol term = none) :
    redirectFor index cwd (.content (some term) via) = none := by
  simp only [redirectFor, Option.bind_some, h, Option.bind_none]

theorem redirectFor_some (h : asSymbol term = some symbol) :
    redirectFor index cwd (.content (some term) via) =
      if searchNodesByNameExact index.store symbol = [] then none
      else some ⟨symbol, contentText symbol via⟩ := by
  simp only [redirectFor, Option.bind_some, h]

theorem redirectFor_content : (redirectFor index cwd (.content (some term) via)).isSome = true ↔
    ∃ symbol, asSymbol term = some symbol ∧
      ∃ r ∈ index.store.nodes.rows, r.kind ≠ "doc-chunk" ∧ NamedAlike symbol r := by
  cases hs : asSymbol term with
  | none =>
    rw [redirectFor_none hs]
    simp
  | some symbol =>
    rw [redirectFor_some hs]
    simp only [Option.some.injEq, exists_eq_left']
    rw [← search_ne_nil hs]
    split_ifs with hnone
    · simp [hnone]
    · simp [hnone]

theorem decideRedirect_blocks {clock : Clock} {input : HookInput} {mode : GuardMode} {repo : Repo}
    {request : Request} {redirect : Option Redirect}
    (h : (decideRedirect clock input mode repo request redirect).1.blocks = true) :
    mode = .strict ∧ redirect ≠ none := by
  cases redirect with
  | none =>
    cases mode with
    | off => simp [decideRedirect, HookOutput.blocks] at h
    | strict => simp [decideRedirect, HookOutput.blocks] at h
    | advisory =>
      simp only [decideRedirect] at h
      cases hnote : advisoryNote request <;> rw [hnote] at h <;> simp [HookOutput.blocks] at h
  | some r =>
    cases mode with
    | off => simp [decideRedirect, HookOutput.blocks] at h
    | advisory => simp [decideRedirect, HookOutput.blocks] at h
    | strict => exact ⟨rfl, Option.some_ne_none r⟩

def grepInput (term : String) : HookInput :=
  ⟨some "s", none, none, some "Grep", some { ToolInput.empty with pattern := some term }⟩

def currentRepo (s : SqliteStore) : Repo := ⟨"/r", some (some ⟨s, some "a"⟩), some "a", none⟩

theorem classify_grepInput (h : term ≠ "") :
    classify (grepInput term) = some (.content (some term) "Grep") := by
  have hterm : nonEmptyString (some term) = some term := by simp [nonEmptyString, h]
  have htool : travsrToolTerm "Grep" (grepInput term) = none := by
    unfold travsrToolTerm
    rw [if_pos (Or.inl (by decide))]
  have hgrep : classifyTool "Grep" (grepInput term) =
      some (.content (nonEmptyString (some term)) "Grep") := by
    unfold classifyTool
    rw [if_pos rfl]
    rfl
  have hname : (grepInput term).toolName = some "Grep" := rfl
  have hevent : (grepInput term).hookEventName = none := rfl
  unfold classify
  rw [hevent, hname, Option.bind_some, htool]
  simp only [hgrep, hterm, Option.any_none, Bool.false_eq_true, if_false]

theorem candidates_grepInput (request : Request) :
    candidates (grepInput term) request = [request] := rfl

theorem ne_empty_of_asSymbol (h : asSymbol term = some symbol) : term ≠ "" ∧ trim symbol ≠ "" := by
  obtain ⟨htrim, hlen, hchars⟩ := asSymbol_some h
  have hsymbol : symbol ≠ "" := by
    intro hempty
    rw [hempty] at hlen
    simp [byteLen] at hlen
  have hkept : trim symbol = symbol := by
    have hwhite : ∀ c ∈ symbol.toList, isWhitespace c = false := by
      intro c hc
      rcases hchars c hc with hword | rfl | rfl | rfl
      · exact not_isWhitespace_of_isAlphanum hword
      · decide
      · decide
      · decide
    unfold trim
    rw [Corpus.trimChars_eq (fun c hc => hwhite c (List.mem_of_head? hc))
      (fun c hc => hwhite c (List.mem_of_getLast? hc)), String.ofList_toList]
  rw [hkept]
  refine ⟨fun hempty => hsymbol ?_, hsymbol⟩
  rw [htrim, hempty]
  decide +kernel

theorem release_first (clock : Clock) {session : String} (hsession : session ≠ "")
    (hterm : trim symbol ≠ "") : (release clock none (some session) symbol).1 = false := by
  have hfilter : (some session).filter (fun s => s ≠ "") = some session := by simp [hsession]
  have hentry : ((load none).entry session).queried = [] ∧
      ((load none).entry session).denied = [] := ⟨rfl, rfl⟩
  unfold release
  rw [hfilter]
  simp only [normalise, if_neg hterm, hentry.1, hentry.2, List.not_mem_nil, or_self, if_false]

theorem denied_of_found (hs : asSymbol term = some symbol)
    (hfound : ∃ r ∈ s.nodes.rows, r.kind ≠ "doc-chunk" ∧ NamedAlike symbol r) :
    DecidesOn s term (grepInput term) (currentRepo s) ∧
      (Policy.decide ⟨0, 0⟩ (grepInput term) .strict (some (currentRepo s))).1.blocks = true := by
  obtain ⟨hterm, htrim⟩ := ne_empty_of_asSymbol hs
  have hclass := classify_grepInput hterm
  have hredirect : (redirectFor ⟨"/r", s⟩ none (.content (some term) "Grep")).isSome = true :=
    redirectFor_content.mpr ⟨symbol, hs, hfound⟩
  refine ⟨⟨⟨⟨s, some "a"⟩, rfl, rfl⟩, _, "Grep", hclass, ?_⟩, ?_⟩
  · rw [candidates_grepInput]
    exact List.find?_cons_of_pos hredirect
  · have hsearch := (search_ne_nil hs).mpr hfound
    have hopen : openIndex (currentRepo s) = some ⟨"/r", s⟩ := by
      obtain ⟨r, hmem, -⟩ := hfound
      have hcount : s.nodes.rows.length ≠ 0 := (List.length_pos_of_mem hmem).ne'
      have hmatch : headIndexMismatch "a" "a" = false := by decide +kernel
      have hcommit : "a" ≠ "" := by decide
      unfold openIndex currentRepo
      simp only [Option.getD_some, if_neg hcount, if_neg hcommit, hmatch, Bool.false_eq_true,
        if_false]
    have hfind : (candidates (grepInput term) (.content (some term) "Grep")).findSome?
        (redirectFor ⟨"/r", s⟩ none) = some ⟨symbol, contentText symbol "Grep"⟩ := by
      rw [candidates_grepInput, List.findSome?_cons, redirectFor_some hs, if_neg hsearch]
    have hname : "s" ≠ "" := by decide
    have hreleased := release_first ⟨0, 0⟩ hname htrim
    have hdecide : (Policy.decide ⟨0, 0⟩ (grepInput term) .strict (some (currentRepo s))).1 =
        (decideIn ⟨0, 0⟩ (grepInput term) .strict (currentRepo s)
          (.content (some term) "Grep")).1 := by
      unfold Policy.decide
      rw [hclass]
      rfl
    have hin : (decideIn ⟨0, 0⟩ (grepInput term) .strict (currentRepo s)
        (.content (some term) "Grep")).1 = .deny (contentText symbol "Grep") := by
      have hcwd : (grepInput term).cwd = none := rfl
      have hsession : (grepInput term).sessionId = some "s" := rfl
      have hfile : (currentRepo s).session = none := rfl
      unfold decideIn
      simp only [hopen, hcwd, hfind]
      unfold decideRedirect
      simp only [hsession, hfile, hreleased, Bool.false_eq_true, if_false]
    rw [hdecide, hin]
    rfl

/-- For every graph and every pattern: a denial rests on a node of exactly the symbol's name exactly
if there is such a node, or no node of code is named alike, or the pattern is no symbol. -/
theorem deniedByNameOnly_iff (s : SqliteStore) (term : String) :
    DeniedByNameOnly s term ↔ ∀ symbol, asSymbol term = some symbol →
      (∃ r ∈ s.nodes.rows, leafOf r.vname.signature = symbol) ∨
        ∀ r ∈ s.nodes.rows, r.kind ≠ "doc-chunk" → ¬NamedAlike symbol r := by
  constructor
  · intro h symbol hs
    by_cases hfound : ∃ r ∈ s.nodes.rows, r.kind ≠ "doc-chunk" ∧ NamedAlike symbol r
    · obtain ⟨hdecides, hdenied⟩ := denied_of_found hs hfound
      obtain ⟨symbol', hs', hnamed⟩ := h _ _ _ _ hdecides hdenied
      have heq : symbol = symbol' := Option.some.inj (hs.symm.trans hs')
      exact Or.inl (heq ▸ hnamed)
    · exact Or.inr fun r hr hkind halike => hfound ⟨r, hr, hkind, halike⟩
  · intro h clock input mode repo hdecides _
    obtain ⟨request, via, -, hfind⟩ := hdecides.search
    have hsome := List.find?_some hfind
    obtain ⟨symbol, hs, r, hr, hkind, halike⟩ := redirectFor_content.mp hsome
    rcases h symbol hs with hnamed | hnone
    · exact ⟨symbol, hs, hnamed⟩
    · exact absurd halike (hnone r hr hkind)

def methodStore : SqliteStore where
  __ := SqliteStore.empty
  nodes := ⟨⟨[⟨1, ⟨"a", "", "src/cart.ts", "typescript", "method:Cart.total"⟩, "method", "", none,
    none, false, .none, none⟩], by decide⟩, by decide⟩

/-- A search for the word `method` is denied where any method is known. -/
theorem kind_prefix_is_denied : ¬DeniedByNameOnly methodStore "method" := by
  intro h
  have hs : asSymbol "method" = some "method" := by decide +kernel
  have halike : NamedAlike "method" ⟨1, ⟨"a", "", "src/cart.ts", "typescript",
      "method:Cart.total"⟩, "method", "", none, none, false, .none, none⟩ :=
    Or.inl ⟨"method".toList, ":Cart.total".toList, rfl, alike_refl _⟩
  obtain ⟨hdecides, hdenied⟩ := denied_of_found (s := methodStore) hs
    ⟨_, List.mem_singleton.mpr rfl, by decide, halike⟩
  obtain ⟨symbol, hs', r, hr, hleaf⟩ := h _ _ _ _ hdecides hdenied
  rw [List.mem_singleton.mp hr] at hleaf
  have heq : symbol = "method" := Option.some.inj (hs'.symm.trans hs)
  rw [heq] at hleaf
  exact absurd hleaf (by decide +kernel)

end Travsr.Guard
