import Travsr.Daemon.UnifyOrder
import Travsr.Indexer.Descriptors

namespace Travsr.Daemon

open Travsr.Core Core.Text Indexer Store

/-! ### What the span lookup answers -/

def Unifier.spanRows (u : Unifier) (d : Definition) : List Placed :=
  candidateRows u.nodes u.corpus d.path d.sameFile

/-- The row spans the line, or stands within the window. -/
def IsNear (p : Placed) (line : Nat) : Prop := p.Spans line ∨ p.distance line ≤ MAX_LINE_DELTA

/-- The line lies in the span of a candidate that is narrower than the group's node. -/
def Unifier.Narrower (u : Unifier) (d : Definition) (g : Placed) : Prop :=
  ∃ p ∈ u.spanRows d, p.Spans d.line ∧ p.width < g.width

/-- Among the candidates near the line the group's node comes first: it spans the line, or else it
stands within the window, no candidate spans the line and none in the window is narrower. -/
def Unifier.GroupFirst (u : Unifier) (d : Definition) (g : Placed) : Prop :=
  g ∈ u.spanRows d ∧ (g.Spans d.line ∨ (g.distance d.line ≤ MAX_LINE_DELTA ∧
    ∀ p ∈ u.spanRows d, p ≠ g →
      ¬ p.Spans d.line ∧ (p.distance d.line ≤ MAX_LINE_DELTA → g.width ≤ p.width)))

/-- No candidate spans the line or stands within the window. -/
def Unifier.NothingNear (u : Unifier) (d : Definition) : Prop :=
  ∀ p ∈ u.spanRows d, ¬ IsNear p d.line

namespace Unifier

variable {u : Unifier} {d : Definition} {g p : Placed}

def nearRows (u : Unifier) (d : Definition) : List Placed :=
  (u.spanRows d).filter fun p => p.Spans d.line ∨ p.distance d.line ≤ MAX_LINE_DELTA

theorem mem_nearRows : p ∈ u.nearRows d ↔ p ∈ u.spanRows d ∧ IsNear p d.line := by
  simp [nearRows, IsNear]

theorem spanRung_eq : u.spanRung d =
    ((u.nearRows d).argmin fun p => p.rank d.sameFile d.line).map fun p => p.row.id := rfl

theorem spanRung_eq_none : u.spanRung d = none ↔ u.NothingNear d := by
  rw [spanRung_eq, Option.map_eq_none_iff, List.argmin_eq_none, List.eq_nil_iff_forall_not_mem]
  simp [NothingNear, mem_nearRows]

theorem spanRung_eq_some_of_lt (hg : g ∈ u.nearRows d)
    (h : ∀ p ∈ u.nearRows d, p ≠ g → g.rank d.sameFile d.line < p.rank d.sameFile d.line) :
    u.spanRung d = some g.row.id := by
  rw [spanRung_eq]
  cases hm : (u.nearRows d).argmin fun p => p.rank d.sameFile d.line with
  | none => exact absurd (List.argmin_eq_none.mp hm) (List.ne_nil_of_mem hg)
  | some m =>
    have hmem := List.argmin_mem hm
    by_cases hmg : m = g
    · rw [hmg]
      rfl
    · exact absurd (h m hmem hmg) (List.not_lt_of_mem_argmin hg hm)

theorem rank_le_of_spanRung (hg : g ∈ u.spanRows d) (h : u.spanRung d = some g.row.id) :
    g ∈ u.nearRows d ∧
      ∀ p ∈ u.nearRows d, ¬ p.rank d.sameFile d.line < g.rank d.sameFile d.line := by
  rw [spanRung_eq] at h
  obtain ⟨m, hm, hid⟩ := Option.map_eq_some_iff.mp h
  have hmem := List.argmin_mem hm
  obtain rfl : m = g := eq_of_id (mem_nearRows.mp hmem).1 hg hid
  exact ⟨hmem, fun p hp => List.not_lt_of_mem_argmin hp hm⟩

theorem rank_lt_iff {signatures : List String} {line : Nat} :
    g.rank signatures line < p.rank signatures line ↔
      (g.Spans line ∧ ¬ p.Spans line) ∨ ((g.Spans line ↔ p.Spans line) ∧ (g.width < p.width ∨
        (g.width = p.width ∧ (signatures.idxOf g.row.vname.signature <
          signatures.idxOf p.row.vname.signature ∨
          (signatures.idxOf g.row.vname.signature = signatures.idxOf p.row.vname.signature ∧
            g.distance line < p.distance line))))) := by
  rw [Placed.rank, Placed.rank, Rank.of_lt_of]
  by_cases hg : g.Spans line <;> by_cases hp : p.Spans line <;> simp [hg, hp]

/-- The lookup answers with the group's node exactly when it comes first, where no other candidate
has a signature before its own and the line lies in no narrower span. -/
theorem spanRung_eq_group (hnarrow : ¬ u.Narrower d g)
    (hprio : g ∈ u.spanRows d → ∀ p ∈ u.spanRows d, p ≠ g →
      d.sameFile.idxOf g.row.vname.signature < d.sameFile.idxOf p.row.vname.signature)
    (hmem : ∀ p ∈ u.spanRows d, p.row.id = g.row.id → p = g) :
    u.spanRung d = some g.row.id ↔ u.GroupFirst d g := by
  have hwide : ∀ p ∈ u.spanRows d, p.Spans d.line → g.width ≤ p.width :=
    fun p hp hs => not_lt.mp fun hlt => hnarrow ⟨p, hp, hs, hlt⟩
  constructor
  · intro h
    have hg : g ∈ u.spanRows d := by
      rw [spanRung_eq] at h
      obtain ⟨m, hm, hid⟩ := Option.map_eq_some_iff.mp h
      have hms := (mem_nearRows.mp (List.argmin_mem hm)).1
      rwa [hmem m hms hid] at hms
    obtain ⟨hnear, hleast⟩ := rank_le_of_spanRung hg h
    refine ⟨hg, ?_⟩
    by_cases hspans : g.Spans d.line
    · exact .inl hspans
    refine .inr ⟨(mem_nearRows.mp hnear).2.resolve_left hspans, fun p hp hne => ?_⟩
    have hps : ¬ p.Spans d.line := fun hps =>
      hleast p (mem_nearRows.mpr ⟨hp, .inl hps⟩) (rank_lt_iff.mpr (.inl ⟨hps, hspans⟩))
    refine ⟨hps, fun hdist => not_lt.mp fun hlt => ?_⟩
    exact hleast p (mem_nearRows.mpr ⟨hp, .inr hdist⟩)
      (rank_lt_iff.mpr (.inr ⟨iff_of_false hps hspans, .inl hlt⟩))
  · rintro ⟨hg, hfirst⟩
    have hnear : g ∈ u.nearRows d := mem_nearRows.mpr ⟨hg, hfirst.imp_right And.left⟩
    refine spanRung_eq_some_of_lt hnear fun p hp hne => ?_
    obtain ⟨hps, hpn⟩ := mem_nearRows.mp hp
    have hidx := hprio hg p hps hne
    rw [rank_lt_iff]
    rcases hfirst with hspans | ⟨hdist, hrest⟩
    · by_cases hp' : p.Spans d.line
      · have := hwide p hps hp'
        refine .inr ⟨iff_of_true hspans hp', ?_⟩
        omega
      · exact .inl ⟨hspans, hp'⟩
    · obtain ⟨hp', hw⟩ := hrest p hps hne
      by_cases hspans : g.Spans d.line
      · exact .inl ⟨hspans, hp'⟩
      · have := hw (hpn.resolve_left hp')
        refine .inr ⟨iff_of_false hspans hp', ?_⟩
        omega

end Unifier

/-! ### The definitions of a method group -/

/-- The container-qualified signatures of a group; a constructor is named after its type. -/
def groupSignatures (c name : String) : List String :=
  if name = ".ctor" ∨ name = "<init>" then ["method:" ++ c ++ "." ++ c, "fn:" ++ c ++ "." ++ c]
  else ["method:" ++ c ++ "." ++ name, "fn:" ++ c ++ "." ++ name]

/-- The one entry of a batch with its id and its symbol. -/
def AloneIn (batch : List Node) (n : Node) : Prop :=
  ∃ pre post, batch = pre ++ n :: post ∧ ∀ a ∈ pre ++ post, a.id ≠ n.id ∧ symOf a ≠ symOf n

/-- Some definitions of a batch are overloads of one method of a container, or constructors of a
type, in a file where one node has the group's signature. -/
structure OverloadGroup (u : Unifier) (batch defs : List Node) (c name path : String)
    (g : Placed) : Prop where
  alone : ∀ a ∈ defs, AloneIn batch a
  samePath : ∀ a ∈ defs, a.vname.path = path
  placed : ∀ a ∈ defs, a.line.isSome = true
  /-- Each names the group; a block of a test is no method. -/
  named : ∀ a ∈ defs, ∃ parsed, scipNameKind u.tables (symOf a) = some parsed ∧
    isDslScopeLeaf u.tables parsed = false ∧ u.adjust a parsed = ⟨some c, name, .function⟩
  /-- The one node of the group, a definition of Phase A. -/
  group : candidateRows u.nodes u.corpus path (groupSignatures c name) = [g]
  isDefinition : g.row.kind ≠ "file"

theorem candidateSignatures_group (c name : String) :
    ∃ rest, candidateSignatures ⟨some c, name, .function⟩ = groupSignatures c name ++ rest := by
  have heq : candidateSignatures ⟨some c, name, .function⟩ =
      (if name = ".ctor" ∨ name = "<init>" then
        ["method:" ++ c ++ "." ++ c, "fn:" ++ c ++ "." ++ c] else []) ++
      ["method:" ++ c ++ "." ++ name, "fn:" ++ c ++ "." ++ name] ++
      ((dotted c).flatMap fun seg =>
        ["method:" ++ seg ++ "." ++ name, "fn:" ++ seg ++ "." ++ name]) ++ ["fn:" ++ name] := rfl
  rw [heq, groupSignatures, List.append_assoc, List.append_assoc]
  split_ifs
  · exact ⟨_, rfl⟩
  · exact ⟨_, rfl⟩

theorem overloadCollapseSignatures_group {c name : String} (h : name ≠ "<init>") :
    overloadCollapseSignatures ⟨some c, name, .function⟩ = groupSignatures c name := by
  unfold overloadCollapseSignatures groupSignatures
  rw [if_neg (by simp)]
  dsimp only
  by_cases hc : name = ".ctor"
  · rw [if_pos hc, if_pos (.inl hc)]
  · rw [if_neg hc, if_neg (not_or.mpr ⟨hc, h⟩)]

namespace Unifier

variable {u : Unifier} {batch defs : List Node} {c name path : String} {g p : Placed} {n : Node}
  {d : Definition}

theorem adjust_eq (n : Node) (parsed : ScipName) :
    ∃ name, u.adjust n parsed =
      ⟨if isDslScopeContainer u.tables parsed = true then none else parsed.container, name,
        parsed.kind⟩ := by
  have hbase : (if isDslScopeContainer u.tables parsed = true then
      { parsed with container := none } else parsed : ScipName) =
      ⟨if isDslScopeContainer u.tables parsed = true then none else parsed.container, parsed.name,
        parsed.kind⟩ := by
    by_cases hd : isDslScopeContainer u.tables parsed = true
    · rw [if_pos hd, if_pos hd]
    · rw [if_neg hd, if_neg hd]
  unfold adjust
  dsimp only
  rw [hbase]
  generalize stripPrefix "$" parsed.name.toList = sigil
  cases sigil with
  | none => exact ⟨_, rfl⟩
  | some rest =>
    by_cases hphp : n.vname.language = "php"
    · exact ⟨_, if_pos hphp⟩
    · exact ⟨_, if_neg hphp⟩

/-- A name that is written without backticks. -/
structure PlainName (name : List Char) : Prop where
  nonempty : name ≠ []
  plain : ∀ x ∈ name, x ≠ backtick ∧ x ≠ '/' ∧ x ≠ '#' ∧ x ≠ '('
  noTag : name.head? ≠ some '<'
  noSigil : name.head? ≠ some '$'

/-- How the name of a group stands in its descriptors: a constructor's marker has backticks. -/
def Spells (n : List Char) (name : String) : Prop :=
  (n = name.toList ∧ PlainName n) ∨
    ((name = ".ctor" ∨ name = "<init>") ∧ n = quoted name.toList)

theorem PlainName.head_ne_backtick {name : List Char} (h : PlainName name) :
    name.head? ≠ some backtick := by
  cases name with
  | nil => exact absurd rfl h.nonempty
  | cons x rest =>
    intro hx
    exact (h.plain x List.mem_cons_self).1 (Option.some.inj hx)

theorem not_dslMetaScope {tables : CharTables} {name : String}
    (h : name.toList.head? ≠ some '<' ∨ name = "<init>") : isDslMetaScope tables name = false := by
  rcases h with h | rfl
  · rw [isDslMetaScope, bracketed_of_head h]
  · rfl

theorem Spells.parts (tables : CharTables) {n : List Char} {name : String} (h : Spells n name) :
    Segment n ∧ unwrapMetaContainer tables (stripBackticks n) = name.toList ∧ name.toList ≠ [] ∧
      isDslMetaScope tables name = false ∧ stripPrefix "$" name.toList = none := by
  have hsigil : ∀ a : List Char, a.head? ≠ some '$' → stripPrefix "$" a = none :=
    fun a => stripPrefix_of_head rfl
  rcases h with ⟨rfl, hplain⟩ | ⟨hmarker, rfl⟩
  · exact ⟨segment_plain hplain.plain, unwrap_plain tables hplain.head_ne_backtick hplain.noTag,
      hplain.nonempty, not_dslMetaScope (.inl hplain.noTag), hsigil _ hplain.noSigil⟩
  · have hlist : name.toList = ".ctor".toList ∨ name.toList = "<init>".toList :=
      hmarker.imp (congrArg String.toList) (congrArg String.toList)
    have htick : ∀ x ∈ name.toList, x ≠ backtick := by
      have hall : name.toList.all (fun x => x != backtick) = true := by
        rcases hlist with h | h <;> rw [h] <;> rfl
      intro x hx
      simpa using List.all_eq_true.mp hall x hx
    refine ⟨segment_quoted htick, unwrap_marker tables hlist, ?_, not_dslMetaScope ?_, hsigil _ ?_⟩
    · rcases hlist with h | h <;> rw [h] <;> decide
    · refine hmarker.imp_left fun h => ?_
      rw [h]
      decide
    · rcases hlist with h | h <;> rw [h] <;> decide

theorem indexed_of_group (h : OverloadGroup u batch defs c name path g) :
    phaseAIndexed u.nodes u.corpus path = true := by
  have hg : g ∈ candidateRows u.nodes u.corpus path (groupSignatures c name) := by simp [h.group]
  obtain ⟨hfile, hsig, _⟩ := mem_candidateRows.mp hg
  rw [phaseAIndexed, List.any_eq_true]
  refine ⟨g.row, hfile, ?_⟩
  have hscip : isScipSignature g.row.vname.signature = false := by
    have hhead : ∀ a b : String, isScipSignature ("method:" ++ a ++ "." ++ b) = false ∧
        isScipSignature ("fn:" ++ a ++ "." ++ b) = false := by
      intro a b
      simp only [isScipSignature, startsWith, toAsciiLowercase, String.toList_ofList,
        String.toList_append, List.map_append]
      exact ⟨rfl, rfl⟩
    unfold groupSignatures at hsig
    split_ifs at hsig
    all_goals
      rcases List.mem_cons.mp hsig with heq | heq
      · rw [heq]
        exact (hhead _ _).1
      · rw [List.mem_singleton.mp heq]
        exact (hhead _ _).2
  simp [hscip, h.isDefinition]

theorem afterFirst_suffix {pat s r : List Char} (h : afterFirst pat s = some r) : r <:+ s := by
  induction s with
  | nil =>
    unfold afterFirst at h
    split_ifs at h
    rw [← Option.some.inj h]
  | cons c s ih =>
    unfold afterFirst at h
    split_ifs at h
    · rw [← Option.some.inj h]
      exact List.drop_suffix _ _
    · exact (ih h).trans (List.suffix_cons c s)

theorem afterSpaces_suffix {k : Nat} {s r : List Char} (h : afterSpaces k s = some r) : r <:+ s := by
  induction k generalizing s with
  | zero =>
    rw [← Option.some.inj h]
  | succ k ih =>
    obtain ⟨t, ht, hr⟩ := Option.bind_eq_some_iff.mp h
    exact (ih hr).trans (afterFirst_suffix ht)

theorem getLast_of_function {tables : CharTables} {chain : List Char} {parsed : ScipName}
    (h : descriptorChainKind tables chain = some parsed) (hkind : parsed.kind = .function) :
    chain ≠ [] ∧ chain.getLast? ≠ some '/' := by
  constructor
  · rintro rfl
    cases h
  · intro hslash
    have hstrip : stripSuffix '/' chain = some chain.dropLast := if_pos hslash
    unfold descriptorChainKind at h
    rw [hstrip] at h
    dsimp only at h
    split_ifs at h
    rw [← Option.some.inj h] at hkind
    cases hkind

theorem not_filePackage {parsed : ScipName} (h : scipNameKind u.tables (symOf n) = some parsed)
    (hkind : parsed.kind = .function) : isFilePackage n = false := by
  obtain ⟨chain, hchain, hparsed⟩ := Option.bind_eq_some_iff.mp h
  obtain ⟨hne, hlast⟩ := getLast_of_function hparsed hkind
  have hsym : (symOf n).toList.getLast? ≠ some '/' := by
    obtain ⟨before, hb⟩ := afterSpaces_suffix hchain
    rw [← hb, List.getLast?_append_of_ne_nil before hne]
    exact hlast
  have hends : ∀ pat : String, pat.toList.getLast? = some '/' →
      endsWith (symOf n) pat = false := by
    intro pat hpat
    rw [endsWith, Bool.eq_false_iff]
    intro hsuf
    obtain ⟨before, hb⟩ := List.isSuffixOf_iff_suffix.mp hsuf
    have hne : pat.toList ≠ [] := by
      intro hnil
      rw [hnil] at hpat
      cases hpat
    rw [← hb, List.getLast?_append_of_ne_nil before hne] at hsym
    exact hsym hpat
  unfold isFilePackage
  change (_ && endsWith (symOf n) "/" || _ && endsWith (symOf n) _ && _) = false
  rw [hends _ rfl, hends _ rfl]
  simp

theorem prepare_overload (h : OverloadGroup u batch defs c name path g) (hn : n ∈ defs) :
    ∃ d, u.prepare batch n = .definition d ∧ d.path = path ∧ d.dslContained = false ∧
      d.sameFile = u.sameFileOf batch n ⟨some c, name, .function⟩ ∧
      d.overloadSigs = overloadCollapseSignatures ⟨some c, name, .function⟩ := by
  obtain ⟨parsed, hparse, hleaf, hadjust⟩ := h.named n hn
  obtain ⟨line, hline⟩ := Option.isSome_iff_exists.mp (h.placed n hn)
  obtain ⟨name', hname⟩ := adjust_eq (u := u) n parsed
  rw [hadjust] at hname
  obtain ⟨hcontainer, _, hkind⟩ := ScipName.mk.inj hname
  have hdsl : isDslScopeContainer u.tables parsed = false := by
    rw [Bool.eq_false_iff]
    intro hd
    rw [if_pos hd] at hcontainer
    cases hcontainer
  have hparsed : u.parseName n = some (parsed, true) := by
    unfold parseName
    rw [show scipNameKind u.tables (scipSymbolFromSig n.vname.signature) = some parsed from hparse]
  have hanon : isAnonymousType n parsed = false := by
    simp [isAnonymousType, ← hkind]
  have hindexed : phaseAIndexed u.nodes u.corpus n.vname.path = true := by
    rw [h.samePath n hn]
    exact indexed_of_group h
  let d : Definition := {
    id := n.id
    scipSym := symOf n
    language := n.vname.language
    path := n.vname.path
    line := line
    parsed := ⟨some c, name, .function⟩
    dslContained := false
    candidates := candidatesOf n ⟨some c, name, .function⟩
    sameFile := u.sameFileOf batch n ⟨some c, name, .function⟩
    overloadSigs := overloadCollapseSignatures ⟨some c, name, .function⟩ }
  refine ⟨d, ?_, h.samePath n hn, rfl, rfl, rfl⟩
  unfold prepare
  simp only [not_filePackage hparse hkind.symm, hparsed, hleaf, hanon, hindexed, hline, hadjust,
    hdsl]
  rfl

/-! ### The rungs of a definition of the group -/

theorem not_field_of_group {s : String} (h : s ∈ groupSignatures c name) :
    startsWith s "field:" = false ∧ s ≠ "class:" ++ c := by
  have hhead : ∀ a b : String, (startsWith ("method:" ++ a ++ "." ++ b) "field:" = false ∧
      "method:" ++ a ++ "." ++ b ≠ "class:" ++ c) ∧
      (startsWith ("fn:" ++ a ++ "." ++ b) "field:" = false ∧
        "fn:" ++ a ++ "." ++ b ≠ "class:" ++ c) := by
    intro a b
    have hne : ∀ s t : String, s.toList.head? ≠ t.toList.head? → s ≠ t := by
      intro s t hst heq
      exact hst (by rw [heq])
    refine ⟨⟨?_, hne _ _ ?_⟩, ?_, hne _ _ ?_⟩
    · simp only [startsWith, String.toList_append]
      rfl
    · simp only [String.toList_append]
      show some 'm' ≠ some 'c'
      decide
    · simp only [startsWith, String.toList_append]
      rfl
    · simp only [String.toList_append]
      show some 'f' ≠ some 'c'
      decide
  unfold groupSignatures at h
  split_ifs at h
  all_goals
    rcases List.mem_cons.mp h with rfl | h
    · exact (hhead _ _).1
    · obtain rfl := List.mem_singleton.mp h
      exact (hhead _ _).2

theorem sameFileOf_group (u : Unifier) (batch : List Node) (c name : String) (n : Node) :
    (∃ rest, u.sameFileOf batch n ⟨some c, name, .function⟩ = groupSignatures c name ++ rest) ∨
      ∀ s ∈ u.sameFileOf batch n ⟨some c, name, .function⟩, s ∉ groupSignatures c name := by
  unfold sameFileOf
  by_cases hk : n.vname.language = "kotlin" ∧ n.kind = "symbol"
  · right
    intro s hs hgroup
    obtain ⟨hfield, hclass⟩ := not_field_of_group hgroup
    have hkt : n.vname.language = "kotlin" := hk.1
    have hcandidates : candidatesOf n ⟨some c, name, .function⟩ =
        (candidateSignatures ⟨some c, name, .function⟩).filter fun c => startsWith c "field:" :=
      if_pos hk
    rw [hcandidates, List.mem_append, List.mem_append, List.mem_filter] at hs
    rcases hs with (⟨_, hs⟩ | hs) | hs
    · rw [hs] at hfield
      cases hfield
    · dsimp only at hs
      rw [if_neg (by simp [hkt]), if_neg (by simp), if_neg (by simp)] at hs
      cases hs
    · dsimp only at hs
      rw [if_neg (by simp), List.nil_append] at hs
      split_ifs at hs
      · exact hclass (List.mem_singleton.mp hs)
      · cases hs
  · left
    obtain ⟨rest, hrest⟩ := candidateSignatures_group c name
    have hcandidates : candidatesOf n ⟨some c, name, .function⟩ =
        groupSignatures c name ++ rest := by
      rw [← hrest]
      exact if_neg hk
    rw [hcandidates, List.append_assoc, List.append_assoc]
    exact ⟨_, rfl⟩

theorem group_first_signature (h : OverloadGroup u batch defs c name path g)
    (hpath : d.path = path) (hsame : d.sameFile = u.sameFileOf batch n ⟨some c, name, .function⟩)
    (hg : g ∈ u.spanRows d) (hp : p ∈ u.spanRows d) (hne : p ≠ g) :
    d.sameFile.idxOf g.row.vname.signature < d.sameFile.idxOf p.row.vname.signature := by
  have hgroup : g ∈ candidateRows u.nodes u.corpus path (groupSignatures c name) := by
    simp [h.group]
  have hgsig := (mem_candidateRows.mp hgroup).2.1
  obtain ⟨_, hgsame, _⟩ := mem_candidateRows.mp hg
  obtain ⟨hpfile, hpsame, hpline⟩ := mem_candidateRows.mp hp
  have hpsig : p.row.vname.signature ∉ groupSignatures c name := by
    intro hps
    have hpgroup : p ∈ candidateRows u.nodes u.corpus path (groupSignatures c name) :=
      mem_candidateRows.mpr ⟨hpath ▸ hpfile, hps, hpline⟩
    rw [h.group, List.mem_singleton] at hpgroup
    exact hne hpgroup
  rw [hsame] at hgsame ⊢
  rcases sameFileOf_group u batch c name n with ⟨rest, hrest⟩ | hnone
  · rw [hrest, List.idxOf_append_of_mem hgsig, List.idxOf_append_of_notMem hpsig]
    have := List.idxOf_lt_length_of_mem hgsig
    omega
  · exact absurd hgsig (hnone _ hgsame)

theorem ownRung_of_group (h : OverloadGroup u batch defs c name path g) (hname : name ≠ "<init>")
    (hpath : d.path = path)
    (hover : d.overloadSigs = overloadCollapseSignatures ⟨some c, name, .function⟩) :
    u.ownRung d = some g.row.id := by
  have hrung : u.overloadRung d = some g.row.id := by
    rw [overloadRung, findUniqueTsNodeInFile, hpath, hover, overloadCollapseSignatures_group hname,
      h.group]
    rfl
  rw [ownRung, hrung]
  rfl

end Unifier

/-! ### The alias of a definition that stands alone in its batch -/

namespace Pass

variable {u : Unifier} {batch l : List Node} {n : Node} {st : Pass} {d : Definition}

theorem foldl_visit_other (u : Unifier) (batch : List Node) (st : Pass)
    (h : ∀ a ∈ l, a.id ≠ n.id ∧ symOf a ≠ symOf n) :
    (l.foldl (visit u batch) st).aliasMap n.id = st.aliasMap n.id ∧
      (l.foldl (visit u batch) st).symToTs (symOf n) = st.symToTs (symOf n) ∧
      (l.foldl (visit u batch) st).unmatched =
        st.unmatched ++ l.filterMap (u.leftUnmatched batch) := by
  induction l generalizing st with
  | nil => simp
  | cons a l ih =>
    obtain ⟨hid, hsym⟩ := h a List.mem_cons_self
    obtain ⟨halias, hto, hun⟩ := visit_maps u batch st a
    obtain ⟨halias', hto', hun'⟩ :=
      ih (st.visit u batch a) fun b hb => h b (List.mem_cons_of_mem a hb)
    rw [List.foldl_cons, halias', hto', hun', halias, hto, hun, if_neg hid, if_neg hsym]
    refine ⟨rfl, ?_, ?_⟩
    · cases st.symToTs (symOf n) <;> rfl
    · rw [List.append_assoc]
      cases hl : u.leftUnmatched batch a <;> simp [hl]

theorem foldl_rescue_other (u : Unifier) (batch : List Node) (st : Pass)
    (h : ∀ a ∈ l, a.id ≠ n.id ∧ symOf a ≠ symOf n) :
    ((l.filterMap (u.leftUnmatched batch)).foldl (rescue u) st).aliasMap n.id = st.aliasMap n.id ∧
      ((l.filterMap (u.leftUnmatched batch)).foldl (rescue u) st).symToTs (symOf n) =
        st.symToTs (symOf n) := by
  induction l generalizing st with
  | nil => simp
  | cons a l ih =>
    have hrest := fun st : Pass => ih st fun b hb => h b (List.mem_cons_of_mem a hb)
    cases ha : u.leftUnmatched batch a with
    | none =>
      rw [List.filterMap_cons_none ha]
      exact hrest st
    | some e =>
      obtain ⟨hid, hsym⟩ := h a List.mem_cons_self
      obtain ⟨heid, hesym, _⟩ :=
        Unifier.prepare_definition (Unifier.leftUnmatched_eq_some.mp ha).1
      obtain ⟨halias, hto⟩ := rescue_maps u st e
      obtain ⟨halias', hto'⟩ := hrest (st.rescue u e)
      rw [List.filterMap_cons_some ha, List.foldl_cons, halias', hto', halias, hto, heid, hesym,
        if_neg hid, if_neg hsym]
      refine ⟨rfl, ?_⟩
      cases st.symToTs (symOf n) <;> rfl

theorem foldl_visit_alone {pre post : List Node} (hl : l = pre ++ n :: post)
    (hother : ∀ a ∈ pre ++ post, a.id ≠ n.id ∧ symOf a ≠ symOf n)
    (hd : u.prepare batch n = .definition d) :
    (l.foldl (visit u batch) .empty).aliasMap n.id = u.spanRung d ∧
      (l.foldl (visit u batch) .empty).symToTs (symOf n) = u.spanRung d ∧
      (l.foldl (visit u batch) .empty).unmatched = l.filterMap (u.leftUnmatched batch) := by
  have hpre := foldl_visit_other u batch .empty
    fun a ha => hother a (List.mem_append_left post ha)
  have hpost := foldl_visit_other u batch ((pre.foldl (visit u batch) .empty).visit u batch n)
    fun a ha => hother a (List.mem_append_right pre ha)
  obtain ⟨halias, hto, hun⟩ := visit_maps u batch (pre.foldl (visit u batch) .empty) n
  have htwin : u.spanTwin batch n = u.spanRung d := by
    rw [Unifier.spanTwin, hd]
  have hfield : u.fieldTwin batch n = none := by
    rw [Unifier.fieldTwin, hd]
  rw [hl, List.foldl_append, List.foldl_cons, hpost.1, hpost.2.1, hpost.2.2, halias, hto, hun,
    hpre.1, hpre.2.1, hpre.2.2, if_pos rfl, if_pos rfl, htwin, hfield]
  refine ⟨?_, ?_, ?_⟩
  · cases u.spanRung d <;> rfl
  · rfl
  · rw [List.filterMap_append]
    cases hleft : u.leftUnmatched batch n <;> simp [hleft, empty]

theorem aliasMap_of_alone (halone : AloneIn batch n) (hd : u.prepare batch n = .definition d)
    (hdsl : d.dslContained = false) :
    (unifyPass u batch).aliasMap n.id = (u.spanRung d <|> u.ownRung d) := by
  obtain ⟨pre, post, hl, hother⟩ := halone
  obtain ⟨hid, hsym, _⟩ := Unifier.prepare_definition hd
  obtain ⟨halias, hto, hun⟩ := foldl_visit_alone hl hother hd
  rw [unifyPass]
  simp only [foldl_dropLocal_aliasMap, hun]
  generalize batch.foldl (visit u batch) .empty = st at halias hto
  have hpre := fun st : Pass => foldl_rescue_other u batch st
    fun a ha => hother a (List.mem_append_left post ha)
  have hpost := fun st : Pass => foldl_rescue_other u batch st
    fun a ha => hother a (List.mem_append_right pre ha)
  have hsplit : batch.filterMap (u.leftUnmatched batch) =
      pre.filterMap (u.leftUnmatched batch) ++
        ((u.leftUnmatched batch n).toList ++ post.filterMap (u.leftUnmatched batch)) := by
    nth_rewrite 2 [hl]
    rw [List.filterMap_append]
    cases hleft : u.leftUnmatched batch n <;> simp [hleft]
  rw [hsplit, List.foldl_append, List.foldl_append, (hpost _).1]
  cases hspan : u.spanRung d with
  | some ts =>
    have hleft : u.leftUnmatched batch n = none := by
      rw [Unifier.leftUnmatched, hd]
      simp [hspan]
    rw [hleft]
    show (List.foldl (rescue u) st _).aliasMap n.id = _
    rw [(hpre st).1, halias, hspan]
    rfl
  | none =>
    have hleft : u.leftUnmatched batch n = some d :=
      Unifier.leftUnmatched_eq_some.mpr ⟨hd, hspan, hdsl⟩
    obtain ⟨hresc, _⟩ := rescue_maps u (List.foldl (rescue u) st (pre.filterMap _)) d
    rw [hleft]
    show (rescue u _ d).aliasMap n.id = _
    rw [hresc, if_pos hid, hsym, (hpre st).1, (hpre st).2, halias,
      hto, hspan]
    cases u.ownRung d <;> rfl

end Pass

/-! ### Overloads unify -/

namespace Unifier

variable {u : Unifier} {batch defs : List Node} {c name path : String} {g p : Placed} {n : Node}
  {d : Definition}

def aliasOf (u : Unifier) (batch : List Node) (refs : List ScipRef) (n : Node) : Option NodeId :=
  (unifyAll u batch refs).1.aliasMap n.id

/-- Each definition is aliased onto some row, and onto the group's node where its line lies in no
narrower span. -/
def OverloadsUnify (u : Unifier) (batch defs : List Node) (refs : List ScipRef) (g : Placed) :
    Prop :=
  ∀ a ∈ defs, (∃ r ∈ u.nodes.rows, u.aliasOf batch refs a = some r.id) ∧
    ∀ d, u.prepare batch a = .definition d → ¬ u.Narrower d g →
      u.aliasOf batch refs a = some g.row.id

/-- The line lies in a narrower span, or the group's node comes first among the candidates near
it, or there is none near it; a constructor of Java's, with none near it, needs its own lookups to
find the group's node. -/
def ReachesGroup (u : Unifier) (name : String) (g : Placed) (d : Definition) : Prop :=
  u.Narrower d g ∨ u.GroupFirst d g ∨
    (u.NothingNear d ∧ (name = "<init>" → u.ownRung d = some g.row.id))

theorem row_of_spanRung {ts : NodeId} (h : u.spanRung d = some ts) :
    ∃ r ∈ u.nodes.rows, r.id = ts := by
  rw [spanRung_eq] at h
  obtain ⟨m, hm, hid⟩ := Option.map_eq_some_iff.mp h
  have hrow := (mem_candidateRows.mp (mem_nearRows.mp (List.argmin_mem hm)).1).1
  exact ⟨m.row, (List.mem_filter.mp hrow).1, hid⟩

theorem spanRung_of_narrower (h : u.Narrower d g) : (u.spanRung d).isSome = true := by
  obtain ⟨p, hp, hspans, _⟩ := h
  rw [Option.isSome_iff_ne_none]
  intro hnone
  exact spanRung_eq_none.mp hnone p hp (.inl hspans)

theorem alias_of_group (h : OverloadGroup u batch defs c name path g) (hn : n ∈ defs)
    (hd : u.prepare batch n = .definition d) (hnarrow : ¬ u.Narrower d g) :
    (u.spanRung d <|> u.ownRung d) = some g.row.id ↔ u.ReachesGroup name g d := by
  obtain ⟨d', hd', hpath, _, hsame, hover⟩ := prepare_overload h hn
  rw [hd] at hd'
  obtain rfl := Prepared.definition.inj hd'
  have hgroup : g ∈ candidateRows u.nodes u.corpus path (groupSignatures c name) := by
    simp [h.group]
  have hfirst := spanRung_eq_group hnarrow
    (fun hg p hp hne => group_first_signature h hpath hsame hg hp hne)
    (fun p hp hid => eq_of_id hp hgroup hid)
  cases hs : u.spanRung d with
  | some ts =>
    have hnear : ¬ u.NothingNear d := by
      intro hnear
      rw [spanRung_eq_none.mpr hnear] at hs
      cases hs
    rw [hs] at hfirst
    simp only [ReachesGroup, hnarrow, hnear, false_and, or_false, false_or]
    exact hfirst
  | none =>
    have hnear : u.NothingNear d := spanRung_eq_none.mp hs
    have hlast : ¬ u.GroupFirst d g := by
      intro hg
      rw [hfirst.mpr hg] at hs
      cases hs
    simp only [ReachesGroup, hnarrow, hnear, hlast, true_and, false_or]
    show u.ownRung d = _ ↔ _
    constructor
    · intro hown _
      exact hown
    · intro hinit
      by_cases hname : name = "<init>"
      · exact hinit hname
      · exact ownRung_of_group h hname hpath hover

/-- The overloads of a group unify exactly when each definition reaches its node. -/
theorem overloads_unify_iff {refs : List ScipRef} (h : OverloadGroup u batch defs c name path g) :
    u.OverloadsUnify batch defs refs g ↔
      ∀ a ∈ defs, ∀ d, u.prepare batch a = .definition d → u.ReachesGroup name g d := by
  have hrow : g.row ∈ u.nodes.rows := by
    have hgroup : g ∈ candidateRows u.nodes u.corpus path (groupSignatures c name) := by
      simp [h.group]
    exact (List.mem_filter.mp (mem_candidateRows.mp hgroup).1).1
  refine forall₂_congr fun a ha => ?_
  obtain ⟨d, hd, _, hdsl, _⟩ := prepare_overload h ha
  have halias : u.aliasOf batch refs a = (u.spanRung d <|> u.ownRung d) :=
    Pass.aliasMap_of_alone (h.alone a ha) hd hdsl
  have honly : ∀ e, u.prepare batch a = .definition e → e = d := by
    intro e he
    rw [hd] at he
    exact (Prepared.definition.inj he).symm
  constructor
  · rintro ⟨_, hgroup⟩ e he
    obtain rfl := honly e he
    by_cases hnarrow : u.Narrower e g
    · exact .inl hnarrow
    · exact (alias_of_group h ha hd hnarrow).mp (halias ▸ hgroup e he hnarrow)
  · intro hreach
    have hwhole : ¬ u.Narrower d g → u.aliasOf batch refs a = some g.row.id := fun hnarrow =>
      halias.trans ((alias_of_group h ha hd hnarrow).mpr (hreach d hd))
    refine ⟨?_, fun e he hnarrow => hwhole (honly e he ▸ hnarrow)⟩
    by_cases hnarrow : u.Narrower d g
    · obtain ⟨ts, hts⟩ := Option.isSome_iff_exists.mp (spanRung_of_narrower hnarrow)
      obtain ⟨r, hr, rfl⟩ := row_of_spanRung hts
      refine ⟨r, hr, ?_⟩
      rw [halias, hts]
      rfl
    · exact ⟨g.row, hrow, hwhole hnarrow⟩

def phaseARows (language : String)
    (rows : List (NodeId × String × String × String × Nat × Nat)) : NodeTable :=
  rows.foldl
    (fun t r =>
      t.insertIgnore ⟨r.1, ⟨"c", "", r.2.1, language, r.2.2.1⟩, r.2.2.2.1, "", some r.2.2.2.2.1,
        some r.2.2.2.2.2, false, .none, none⟩)
    Relational.IndexedTable.empty

def scipDefinition (language : String) (id : NodeId) (path symbol kind : String) (line : Nat) :
    Node :=
  ⟨id, ⟨"c", "", path, language, "scip:" ++ path ++ ":" ++ symbol⟩, kind, "", some line, none,
    .none⟩

def asciiTables : CharTables := ⟨Char.isAlpha, Char.isAlphanum⟩

def optionUnifier : Unifier where
  tables := asciiTables
  nodes := phaseARows "csharp"
    [(1, "O.cs", "class:O", "class", 1, 90), (2, "O.cs", "method:O.O", "method", 4, 6)]
  corpus := "c"

def optionConstructor (id : NodeId) (disambiguator : String) (line : Nat) : Node :=
  scipDefinition "csharp" id "O.cs"
    ("scip-dotnet nuget . . O#" ++ String.ofList [backtick] ++ ".ctor" ++
      String.ofList [backtick] ++ "(" ++ disambiguator ++ ").") "definition" line

def optionConstructors : List Node :=
  [optionConstructor 11 "" 4, optionConstructor 12 "+1" 30, optionConstructor 13 "+2" 70]

def optionGroup : Placed :=
  ⟨⟨2, ⟨"c", "", "O.cs", "csharp", "method:O.O"⟩, "method", "", some 4, some 6, false, .none, none⟩,
    4⟩

theorem aloneIn_of_pairwise {batch : List Node}
    (h : batch.Pairwise fun a b => a.id ≠ b.id ∧ symOf a ≠ symOf b) :
    ∀ a ∈ batch, AloneIn batch a := by
  intro a ha
  obtain ⟨pre, post, rfl⟩ := List.append_of_mem ha
  obtain ⟨_, hpost, hpre⟩ := List.pairwise_append.mp h
  refine ⟨pre, post, rfl, fun b hb => ?_⟩
  rcases List.mem_append.mp hb with hb | hb
  · exact hpre b hb a List.mem_cons_self
  · obtain ⟨hid, hsym⟩ := List.rel_of_pairwise_cons hpost hb
    exact ⟨hid.symm, hsym.symm⟩

theorem optionConstructors_group :
    OverloadGroup optionUnifier optionConstructors optionConstructors "O" ".ctor" "O.cs"
      optionGroup where
  alone := aloneIn_of_pairwise (by decide +kernel)
  samePath := by decide +kernel
  placed := by decide +kernel
  named := by
    intro a ha
    refine ⟨⟨some "O", ".ctor", .function⟩, ?_⟩
    revert a
    decide +kernel
  group := by decide +kernel
  isDefinition := by decide +kernel

/-- Three constructors of C#'s share the node of the first. -/
theorem option_constructors_unify :
    optionUnifier.OverloadsUnify optionConstructors optionConstructors [] optionGroup ↔
      ∀ a ∈ optionConstructors, ∀ d, optionUnifier.prepare optionConstructors a = .definition d →
        optionUnifier.ReachesGroup ".ctor" optionGroup d :=
  overloads_unify_iff optionConstructors_group

/-- Two enumerations of Java's that share their name, each with a constructor. -/
def opUnifier : Unifier where
  tables := asciiTables
  nodes := phaseARows "java"
    [(1, "a/Op.java", "enum:Op", "enum", 1, 50), (2, "a/Op.java", "method:Op.Op", "constructor", 4, 6),
      (3, "b/Op.java", "enum:Op", "enum", 1, 50), (4, "b/Op.java", "method:Op.Op", "constructor", 4, 6)]
  corpus := "c"

def opConstructor (id : NodeId) (disambiguator : String) (line : Nat) : Node :=
  scipDefinition "java" id "a/Op.java"
    ("scip-java maven . . Op#" ++ String.ofList [backtick] ++ "<init>" ++ String.ofList [backtick] ++
      "(" ++ disambiguator ++ ").") "constructor" line

def opConstructors : List Node := [opConstructor 11 "" 4, opConstructor 12 "+1" 20]

def opGroup : Placed :=
  ⟨⟨2, ⟨"c", "", "a/Op.java", "java", "method:Op.Op"⟩, "constructor", "", some 4, some 6, false,
    .none, none⟩, 4⟩

theorem opConstructors_group :
    OverloadGroup opUnifier opConstructors opConstructors "Op" "<init>" "a/Op.java" opGroup where
  alone := aloneIn_of_pairwise (by decide +kernel)
  samePath := by decide +kernel
  placed := by decide +kernel
  named := by
    intro a ha
    refine ⟨⟨some "Op", "<init>", .function⟩, ?_⟩
    revert a
    decide +kernel
  group := by decide +kernel
  isDefinition := by decide +kernel

/-- Java's second constructor stays without an alias. -/
theorem second_java_constructor_is_orphaned : ¬ ∀ (u : Unifier) (batch defs : List Node)
    (c name path : String) (g : Placed) (refs : List ScipRef),
    OverloadGroup u batch defs c name path g → u.OverloadsUnify batch defs refs g := by
  intro h
  obtain ⟨⟨r, _, hr⟩, _⟩ := h opUnifier opConstructors opConstructors "Op" "<init>" "a/Op.java"
    opGroup [] opConstructors_group (opConstructor 12 "+1" 20)
    (List.mem_cons_of_mem _ List.mem_cons_self)
  have hnone : opUnifier.aliasOf opConstructors [] (opConstructor 12 "+1" 20) = none := by
    decide +kernel
  rw [hnone] at hr
  cases hr

end Unifier

end Travsr.Daemon
