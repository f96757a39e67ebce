import Travsr.Indexer.Descriptors

namespace Travsr.Indexer

open Travsr.Core.Text

/-! ### The grammar of SCIP symbols -/

def structural : List Char := ['/', '#', '(', ')', '.', ':', ' ', backtick]

/-- An identifier, simple or between backticks. -/
inductive Ident where
  | simple (name : List Char) (nonempty : name ≠ []) (plain : ∀ c ∈ name, c ∉ structural)
  | escaped (name : List Char) (nonempty : name ≠ []) (closed : ∀ c ∈ name, c ≠ backtick)

def Ident.name : Ident → List Char
  | simple name _ _ => name
  | escaped name _ _ => name

def Ident.text : Ident → List Char
  | simple name _ _ => name
  | escaped name _ _ => quoted name

def namespacesText (namespaces : List Ident) : List Char :=
  namespaces.flatMap fun n => n.text ++ ['/']

def typesText (types : List Ident) : List Char := types.flatMap fun t => t.text ++ ['#']

/-- The last descriptor of a definition. -/
inductive Leaf where
  | type (n : Ident)
  | term (n : Ident) (plain : '/' ∉ n.name ∧ ':' ∉ n.name)
  | method (n : Ident) (disambiguator : List Char)
      (flat : ∀ c ∈ disambiguator, c ≠ backtick ∧ c ≠ '/' ∧ c ≠ '(')

def Leaf.ident : Leaf → Ident
  | type n => n
  | term n _ => n
  | method n _ _ => n

def Leaf.kind : Leaf → ScipKind
  | type _ => .cls
  | term _ _ => .var
  | method _ _ _ => .function

def Leaf.suffix : Leaf → List Char
  | type _ => ['#']
  | term _ _ => ['.']
  | method _ disambiguator _ => '(' :: (disambiguator ++ [')', '.'])

/-- A descriptor that stands for no definition of its own. -/
inductive Unnamed where
  | parameter (n : Ident)
  | typeParameter (n : Ident)
  | metaDescriptor (n : Ident)
  | macroDescriptor (n : Ident)

def Unnamed.text : Unnamed → List Char
  | parameter n => '(' :: (n.text ++ [')'])
  | typeParameter n => '[' :: (n.text ++ [']'])
  | metaDescriptor n => n.text ++ [':']
  | macroDescriptor n => n.text ++ ['!']

/-- The four fields before the descriptors. -/
structure Metadata where
  scheme : List Char
  manager : List Char
  package : List Char
  version : List Char
  nonempty : scheme ≠ [] ∧ manager ≠ [] ∧ package ≠ [] ∧ version ≠ []
  spaceFree : ' ' ∉ scheme ∧ ' ' ∉ manager ∧ ' ' ∉ package ∧ ' ' ∉ version

def symbolText (m : Metadata) (descriptors : List Char) : String :=
  String.ofList (m.scheme ++ ' ' :: (m.manager ++ ' ' ::
    (m.package ++ ' ' :: (m.version ++ ' ' :: descriptors))))

/-- `<Class:X>` or `<Module:X>`, where `X` is a word. -/
def IsScope (tables : CharTables) (s x : List Char) : Prop :=
  ∃ tag, (tag = "Class".toList ∨ tag = "Module".toList) ∧ x ≠ [] ∧
    (∀ c ∈ x, tables.isAlphanumeric c = true ∨ c = '_') ∧ s = '<' :: (tag ++ ':' :: (x ++ ['>']))

/-- What an identifier is reported as: a scope as its word, any other as itself. -/
inductive Reported (tables : CharTables) (s : List Char) : List Char → Prop where
  | scope {x : List Char} (h : IsScope tables s x) : Reported tables s x
  | self (h : ∀ x, ¬ IsScope tables s x) : Reported tables s s

/-! ### Scopes -/

variable {tables : CharTables}

theorem stripSuffix_concat (c : Char) (s : List Char) : stripSuffix c (s ++ [c]) = some s := by
  rw [stripSuffix, if_pos List.getLast?_concat, List.dropLast_concat]

theorem eq_concat_of_stripSuffix {c : Char} {s t : List Char} (h : stripSuffix c s = some t) :
    s = t ++ [c] := by
  unfold stripSuffix at h
  split_ifs at h with hlast
  rw [← Option.some.inj h]
  exact (List.dropLast_append_getLast? c hlast).symm

theorem bracketed_eq_some {s t : List Char} : bracketed s = some t ↔ s = '<' :: (t ++ ['>']) := by
  constructor
  · intro h
    obtain ⟨u, hu, hut⟩ := Option.bind_eq_some_iff.mp h
    unfold stripPrefix at hu
    split_ifs at hu with hpre
    obtain ⟨v, rfl⟩ := List.isPrefixOf_iff_prefix.mp hpre
    have huv : v = u := by simpa using hu
    rw [huv, eq_concat_of_stripSuffix hut]
    rfl
  · rintro rfl
    have hpre : stripPrefix "<" ('<' :: (t ++ ['>'])) = some (t ++ ['>']) := by
      simp [stripPrefix]
    rw [bracketed, hpre, Option.bind_some, stripSuffix_concat]

theorem colon_not_mem_tag {tag : List Char} (h : tag = "Class".toList ∨ tag = "Module".toList) :
    ':' ∉ tag := by
  rcases h with rfl | rfl
  · decide
  · decide

theorem isMetaTag_iff {tag : List Char} :
    isMetaTag tag = true ↔ tag = "Class".toList ∨ tag = "Module".toList := by
  rw [isMetaTag, Bool.or_eq_true, decide_eq_true_eq, decide_eq_true_eq]

theorem unwrap_scope {s x : List Char} (h : IsScope tables s x) :
    unwrapMetaContainer tables s = x := by
  obtain ⟨tag, htag, hne, hword, rfl⟩ := h
  have hbr : bracketed ('<' :: (tag ++ ':' :: (x ++ ['>']))) = some (tag ++ ':' :: x) :=
    bracketed_eq_some.mpr (by simp)
  have hsplit : Scan.splitOnce [':'] (tag ++ ':' :: x) = some (tag, x) :=
    Scan.splitOnce_singleton (colon_not_mem_tag htag)
  have htag' : isMetaTag tag = true := isMetaTag_iff.mpr htag
  have hall : x.all (fun c => tables.isAlphanumeric c || decide (c = '_')) = true := by
    rw [List.all_eq_true]
    intro c hc
    simpa using hword c hc
  have hemp : x.isEmpty = false := by simpa using hne
  rw [unwrapMetaContainer, hbr, Option.bind_some, hsplit]
  simp [htag', hall, hemp]

theorem unwrap_self {s : List Char} (h : ∀ x, ¬ IsScope tables s x) :
    unwrapMetaContainer tables s = s := by
  unfold unwrapMetaContainer
  split
  · rename_i tag name hsome
    obtain ⟨inner, hinner, hsplit⟩ := Option.bind_eq_some_iff.mp hsome
    rw [if_neg]
    intro hcond
    simp only [Bool.and_eq_true, Bool.not_eq_true', List.isEmpty_eq_false_iff, List.all_eq_true,
      Bool.or_eq_true, decide_eq_true_eq] at hcond
    apply h name
    have hs := bracketed_eq_some.mp hinner
    have heq := Scan.splitOnce_eq_some (by simp) hsplit
    refine ⟨tag, isMetaTag_iff.mp hcond.1.1, hcond.1.2, hcond.2, ?_⟩
    rw [hs, heq]
    simp
  · rfl

theorem reported_unwrap (s : List Char) : Reported tables s (unwrapMetaContainer tables s) := by
  by_cases h : ∃ x, IsScope tables s x
  · obtain ⟨x, hx⟩ := h
    rw [unwrap_scope hx]
    exact .scope hx
  · have hno : ∀ x, ¬ IsScope tables s x := fun x hx => h ⟨x, hx⟩
    rw [unwrap_self hno]
    exact .self hno

theorem reported_ne_nil {s t : List Char} (hs : s ≠ []) (h : Reported tables s t) : t ≠ [] := by
  cases h with
  | scope hx =>
    obtain ⟨tag, -, hne, -⟩ := hx
    exact hne
  | self => exact hs

/-! ### Descriptors in a chain -/

theorem Ident.name_ne_nil (n : Ident) : n.name ≠ [] := by
  cases n with
  | simple name nonempty plain => exact nonempty
  | escaped name nonempty closed => exact nonempty

theorem Ident.passes (n : Ident) {ch : Char} (hch : ch ∈ structural) : Passes ch n.text := by
  cases n with
  | simple name nonempty plain =>
    apply passes_plain
    intro x hx
    refine ⟨fun htick => plain x hx ?_, fun heq => plain x hx (heq ▸ hch)⟩
    rw [htick]
    decide
  | escaped name nonempty closed => exact passes_quoted closed

theorem Ident.stripBackticks (n : Ident) : Indexer.stripBackticks n.text = n.name := by
  cases n with
  | simple name nonempty plain =>
    apply if_neg
    intro h
    exact plain backtick (List.mem_of_head? h.2.1) (by decide)
  | escaped name nonempty closed => exact stripBackticks_quoted name

theorem passes_typesText (types : List Ident) {ch : Char} (hch : ch ∈ structural)
    (hne : ch ≠ '#') : Passes ch (typesText types) := by
  induction types with
  | nil => exact fun b i found => by simp [typesText]
  | cons t types ih =>
    have hhash : Passes ch ['#'] := passes_singleton (by decide) hne.symm
    have hcons : typesText (t :: types) = t.text ++ ['#'] ++ typesText types := by
      simp [typesText]
    rw [hcons]
    exact ((t.passes hch).append hhash).append ih

theorem Balanced.append {ch : Char} {a b : List Char} (ha : Balanced ch a) (hb : Balanced ch b) :
    Balanced ch (a ++ b) := by
  intro c i found
  obtain ⟨found₁, h₁⟩ := ha (b ++ c) i found
  obtain ⟨found₂, h₂⟩ := hb c (i + a.length) found₁
  refine ⟨found₂, ?_⟩
  rw [List.append_assoc, h₁, h₂, List.length_append, Nat.add_assoc]

/-- Identifiers, each with `ch` behind it. -/
theorem balanced_each {ch : Char} (hch : ch ∈ structural) (hne : ch ≠ backtick) (ns : List Ident) :
    Balanced ch (ns.flatMap fun n => n.text ++ [ch]) := by
  induction ns with
  | nil => exact fun b i found => ⟨found, by simp⟩
  | cons n ns ih =>
    have hend : Balanced ch [ch] := balanced_plain (by simpa using hne.symm)
    rw [List.flatMap_cons]
    exact ((n.passes hch).balanced.append hend).append ih

theorem packages_namespacesText (namespaces : List Ident) : Packages (namespacesText namespaces) := by
  cases List.eq_nil_or_concat namespaces with
  | inl hnil =>
    subst hnil
    exact Or.inl rfl
  | inr hconcat =>
    obtain ⟨init, last, rfl⟩ := hconcat
    apply Or.inr
    refine ⟨namespacesText init ++ last.text, by simp [namespacesText], ?_⟩
    exact (balanced_each (by decide) (by decide) init).append (last.passes (by decide)).balanced

theorem drop_past (a b : List Char) (c : Char) : (a ++ c :: b).drop (a.length + 1) = b := by
  simp [List.drop_append]

theorem splitContainer_last {outer c n : List Char}
    (houter : outer = [] ∨ ∃ o, outer = o ++ ['#'] ∧ Balanced '#' o) (hc : Passes '#' c)
    (hn : Passes '#' n) :
    splitContainer tables (outer ++ c ++ '#' :: n) =
      (if (unwrapMetaContainer tables (stripBackticks c)).isEmpty then none
        else some (String.ofList (unwrapMetaContainer tables (stripBackticks c))),
      unwrapMetaContainer tables (stripBackticks n)) := by
  have hbalanced : Balanced '#' (outer ++ c) := by
    rcases houter with rfl | ⟨o, rfl, ho⟩
    · exact hc.balanced
    · exact (ho.append (balanced_plain (by decide))).append hc.balanced
  have hfind : rfindOutsideBackticks (outer ++ c ++ '#' :: n) '#' = some (outer ++ c).length :=
    rfindOutsideBackticks_append (by decide) hbalanced hn
  have htake : (outer ++ c ++ '#' :: n).take (outer ++ c).length = outer ++ c := List.take_left
  rw [splitContainer, hfind]
  dsimp only
  rw [htake, drop_past]
  rcases houter with rfl | ⟨o, rfl, ho⟩
  · rw [List.nil_append, rfindOutsideBackticks_none hc]
  · have hsplit : o ++ ['#'] ++ c = o ++ '#' :: c := by simp
    rw [hsplit, rfindOutsideBackticks_append (by decide) ho hc]
    simp only [drop_past]

theorem typesText_cases (types : List Ident) :
    typesText types = [] ∨ ∃ o, typesText types = o ++ ['#'] ∧ Balanced '#' o := by
  cases List.eq_nil_or_concat types with
  | inl hnil =>
    subst hnil
    exact Or.inl rfl
  | inr hconcat =>
    obtain ⟨outer, t, rfl⟩ := hconcat
    refine Or.inr ⟨typesText outer ++ t.text, by simp [typesText], ?_⟩
    exact (balanced_each (by decide) (by decide) outer).append (t.passes (by decide)).balanced

theorem splitContainer_types (types : List Ident) (n : Ident) :
    splitContainer tables (typesText types ++ n.text) =
      ((types.getLast?.map fun t => unwrapMetaContainer tables t.name).map String.ofList,
        unwrapMetaContainer tables n.name) := by
  have hname : Passes '#' n.text := n.passes (by decide)
  cases List.eq_nil_or_concat types with
  | inl hnil =>
    subst hnil
    have hnone : rfindOutsideBackticks (typesText [] ++ n.text) '#' = none :=
      rfindOutsideBackticks_none hname
    rw [splitContainer, hnone]
    dsimp only
    rw [typesText, List.flatMap_nil, List.nil_append, n.stripBackticks]
    rfl
  | inr hconcat =>
    obtain ⟨init, last, rfl⟩ := hconcat
    have htext : typesText (init.concat last) ++ n.text =
        typesText init ++ last.text ++ '#' :: n.text := by
      simp [typesText]
    have hne : unwrapMetaContainer tables last.name ≠ [] :=
      reported_ne_nil last.name_ne_nil (reported_unwrap last.name)
    have hemp : (unwrapMetaContainer tables last.name).isEmpty = false := by simpa using hne
    rw [htext, splitContainer_last (typesText_cases init) (last.passes (by decide)) hname,
      last.stripBackticks, n.stripBackticks, hemp]
    simp

/-! ### The parser on a chain -/

theorem descriptorChainKind_leaf {pre leaf : List Char} (hpre : Packages pre)
    (hleaf : Passes '/' leaf) (hlast : ∃ c, leaf.getLast? = some c ∧ c ≠ '/') :
    descriptorChainKind tables (pre ++ leaf) =
      if ").".toList.isSuffixOf leaf then
        (rfindOutsideBackticks leaf '(').bind fun open' =>
          named (splitContainer tables (leaf.take open')) .function
      else
        match stripSuffix '#' leaf, stripSuffix '.' leaf with
        | some stripped, _ => named (splitContainer tables stripped) .cls
        | none, some stripped =>
          let split := splitContainer tables stripped
          if split.2.contains '/' || split.2.contains ':' then none else named split .var
        | none, none => none := by
  obtain ⟨c, hc, hne⟩ := hlast
  have hslash : stripSuffix '/' (pre ++ leaf) = none := by
    rw [stripSuffix, if_neg]
    rw [List.getLast?_append, hc, Option.some_or, Option.some.injEq]
    exact hne
  unfold descriptorChainKind
  rw [hslash]
  dsimp only
  rcases hpre with rfl | ⟨p, rfl, hp⟩
  · rw [List.nil_append, rfindOutsideBackticks_none hleaf] <;> rfl
  · have hsplit : p ++ ['/'] ++ leaf = p ++ '/' :: leaf := by simp
    have hfound := rfindOutsideBackticks_append (by decide) hp hleaf
    simp only [hsplit, hfound, drop_past] <;> rfl

def leafText (types : List Ident) (leaf : Leaf) : List Char :=
  typesText types ++ leaf.ident.text ++ leaf.suffix

def chainText (namespaces types : List Ident) (leaf : Leaf) : List Char :=
  namespacesText namespaces ++ leafText types leaf

theorem passes_suffix (leaf : Leaf) : Passes '/' leaf.suffix := by
  cases leaf with
  | type n => exact passes_singleton (by decide) (by decide)
  | term n plain => exact passes_singleton (by decide) (by decide)
  | method n disambiguator flat =>
    have hopen : Passes '/' ['('] := passes_singleton (by decide) (by decide)
    have hflat : Passes '/' disambiguator :=
      passes_plain fun x hx => ⟨(flat x hx).1, (flat x hx).2.1⟩
    have hend : Passes '/' [')', '.'] := passes_plain (by simp [backtick])
    exact hopen.append (hflat.append hend)

theorem passes_leafText (types : List Ident) (leaf : Leaf) : Passes '/' (leafText types leaf) :=
  ((passes_typesText types (by decide) (by decide)).append (leaf.ident.passes (by decide))).append
    (passes_suffix leaf)

theorem getLast_suffix (leaf : Leaf) : ∃ c, leaf.suffix.getLast? = some c ∧ c ≠ '/' := by
  cases leaf with
  | type n => exact ⟨'#', rfl, by decide⟩
  | term n plain => exact ⟨'.', rfl, by decide⟩
  | method n disambiguator flat =>
    have htext : (Leaf.method n disambiguator flat).suffix = '(' :: (disambiguator ++ [')']) ++ ['.'] :=
      by simp [Leaf.suffix]
    exact ⟨'.', by rw [htext, List.getLast?_concat], by decide⟩

theorem named_types (types : List Ident) (n : Ident) (kind : ScipKind) :
    named (splitContainer tables (typesText types ++ n.text)) kind =
      some ⟨(types.getLast?.map fun t => unwrapMetaContainer tables t.name).map String.ofList,
        String.ofList (unwrapMetaContainer tables n.name), kind⟩ := by
  have hne : unwrapMetaContainer tables n.name ≠ [] :=
    reported_ne_nil n.name_ne_nil (reported_unwrap n.name)
  have hemp : (unwrapMetaContainer tables n.name).isEmpty = false := by simpa using hne
  rw [splitContainer_types, named, hemp]
  rfl

theorem Ident.getLast_ne (n : Ident) : n.text.getLast? ≠ some ')' := by
  cases n with
  | simple name nonempty plain =>
    intro h
    exact plain ')' (List.mem_of_getLast? h) (by decide)
  | escaped name nonempty closed =>
    have htext : (Ident.escaped name nonempty closed).text = (backtick :: name) ++ [backtick] := rfl
    rw [htext, List.getLast?_concat]
    decide

theorem not_suffix_of_getLast {a : List Char} {c : Char} (hc : c ≠ '.') :
    ").".toList.isSuffixOf (a ++ [c]) = false := by
  rw [← Bool.not_eq_true, List.isSuffixOf_iff_suffix]
  rintro ⟨b, hb⟩
  have h := congrArg List.getLast? hb
  rw [List.getLast?_concat] at h
  have hdot : (b ++ ").".toList).getLast? = some '.' := by
    rw [List.getLast?_append]
    rfl
  rw [hdot] at h
  exact hc (Option.some.inj h).symm

theorem not_suffix_term {a : List Char} (ha : a.getLast? ≠ some ')') :
    ").".toList.isSuffixOf (a ++ ['.']) = false := by
  rw [← Bool.not_eq_true, List.isSuffixOf_iff_suffix]
  rintro ⟨b, hb⟩
  have hparen : b ++ ").".toList = (b ++ [')']) ++ ['.'] := by simp
  rw [hparen] at hb
  rw [← List.append_cancel_right hb, List.getLast?_concat] at ha
  exact ha rfl

theorem stripSuffix_of_ne {c d : Char} (h : d ≠ c) (a : List Char) :
    stripSuffix c (a ++ [d]) = none := by
  rw [stripSuffix, if_neg]
  rw [List.getLast?_concat, Option.some.injEq]
  exact h

theorem unwrap_term {n : Ident} (h : ':' ∉ n.name) : unwrapMetaContainer tables n.name = n.name := by
  apply unwrap_self
  rintro x ⟨tag, -, -, -, heq⟩
  apply h
  rw [heq]
  simp

theorem descriptorChainKind_chain (namespaces types : List Ident) (leaf : Leaf) :
    descriptorChainKind tables (chainText namespaces types leaf) =
      some ⟨(types.getLast?.map fun t => unwrapMetaContainer tables t.name).map String.ofList,
        String.ofList (unwrapMetaContainer tables leaf.ident.name), leaf.kind⟩ := by
  have hlast : ∃ c, (leafText types leaf).getLast? = some c ∧ c ≠ '/' := by
    obtain ⟨c, hc, hne⟩ := getLast_suffix leaf
    refine ⟨c, ?_, hne⟩
    rw [leafText, List.getLast?_append, hc, Option.some_or]
  rw [chainText, descriptorChainKind_leaf (packages_namespacesText namespaces)
    (passes_leafText types leaf) hlast]
  cases leaf with
  | type n =>
    have htext : leafText types (.type n) = (typesText types ++ n.text) ++ ['#'] := rfl
    rw [htext, not_suffix_of_getLast (by decide), stripSuffix_concat]
    exact named_types types n .cls
  | term n plain =>
    have htext : leafText types (.term n plain) = (typesText types ++ n.text) ++ ['.'] := rfl
    have hparen : (typesText types ++ n.text).getLast? ≠ some ')' := by
      rw [List.getLast?_append]
      have hne := n.getLast_ne
      cases hn : n.text.getLast? with
      | none =>
        have hnil := List.getLast?_eq_none_iff.mp hn
        have hstrip := n.stripBackticks
        rw [hnil] at hstrip
        exact absurd hstrip.symm n.name_ne_nil
      | some c => rwa [hn] at hne
    have hslash : (unwrapMetaContainer tables n.name).contains '/' = false := by
      rw [unwrap_term plain.2]
      simpa using plain.1
    have hcolon : (unwrapMetaContainer tables n.name).contains ':' = false := by
      rw [unwrap_term plain.2]
      simpa using plain.2
    rw [htext, not_suffix_term hparen, stripSuffix_of_ne (by decide), stripSuffix_concat]
    dsimp only
    rw [splitContainer_types, hslash, hcolon, ← splitContainer_types]
    exact named_types types n .var
  | method n disambiguator flat =>
    have htext : leafText types (.method n disambiguator flat) =
        (typesText types ++ n.text) ++ '(' :: (disambiguator ++ [')', '.']) := rfl
    have hsuffix : ").".toList.isSuffixOf (leafText types (.method n disambiguator flat)) = true := by
      rw [List.isSuffixOf_iff_suffix, htext]
      exact ⟨(typesText types ++ n.text) ++ '(' :: disambiguator, by simp⟩
    have hbefore : Balanced '(' (typesText types ++ n.text) :=
      ((passes_typesText types (by decide) (by decide)).append (n.passes (by decide))).balanced
    have hafter : Passes '(' (disambiguator ++ [')', '.']) :=
      (passes_plain fun x hx => ⟨(flat x hx).1, (flat x hx).2.2⟩).append (passes_plain (by simp [backtick]))
    rw [hsuffix, htext, rfindOutsideBackticks_append (by decide) hbefore hafter, Option.bind_some,
      List.take_left]
    exact named_types types n .function

/-! ### Whole symbols -/

theorem afterFirst_space {w : List Char} (hw : ' ' ∉ w) (rest : List Char) :
    afterFirst [' '] (w ++ ' ' :: rest) = some rest := by
  induction w with
  | nil => simp [afterFirst]
  | cons c w ih =>
    obtain ⟨hc, hw⟩ := not_or.mp (fun h => hw (List.mem_cons.mpr h))
    simp [afterFirst, hc, ih hw]

theorem afterFirst_none {w : List Char} (hw : ' ' ∉ w) : afterFirst [' '] w = none := by
  induction w with
  | nil => rfl
  | cons c w ih =>
    obtain ⟨hc, hw⟩ := not_or.mp (fun h => hw (List.mem_cons.mpr h))
    simp [afterFirst, hc, ih hw]

theorem scipNameKind_symbol (m : Metadata) (descriptors : List Char) :
    scipNameKind tables (symbolText m descriptors) = descriptorChainKind tables descriptors := by
  have hchain : afterSpaces 4 (symbolText m descriptors).toList = some descriptors := by
    rw [symbolText, String.toList_ofList]
    simp only [afterSpaces, afterFirst_space m.spaceFree.1, afterFirst_space m.spaceFree.2.1,
      afterFirst_space m.spaceFree.2.2.1, afterFirst_space m.spaceFree.2.2.2, Option.bind_some]
  rw [scipNameKind, hchain, Option.bind_some]

theorem descriptorChainKind_end {a : List Char} {c : Char}
    (h : c ≠ '/' ∧ c ≠ '#' ∧ c ≠ '.') : descriptorChainKind tables (a ++ [c]) = none := by
  have hleaf : ∀ leaf : List Char, leaf.getLast? = some c ∨ leaf = [] →
      ").".toList.isSuffixOf leaf = false ∧ stripSuffix '#' leaf = none ∧
        stripSuffix '.' leaf = none := by
    intro leaf hlast
    cases List.eq_nil_or_concat leaf with
    | inl hnil =>
      subst hnil
      exact ⟨rfl, rfl, rfl⟩
    | inr hconcat =>
      obtain ⟨b, d, rfl⟩ := hconcat
      rw [List.concat_eq_append] at hlast ⊢
      rw [List.getLast?_concat] at hlast
      have hd : d = c := by simpa using hlast
      subst hd
      exact ⟨not_suffix_of_getLast h.2.2, stripSuffix_of_ne h.2.1 b, stripSuffix_of_ne h.2.2 b⟩
  unfold descriptorChainKind
  rw [stripSuffix_of_ne h.1]
  dsimp only
  cases hfind : rfindOutsideBackticks (a ++ [c]) '/' with
  | none =>
    obtain ⟨hparen, hhash, hdot⟩ := hleaf (a ++ [c]) (Or.inl List.getLast?_concat)
    simp only [hparen, hhash, hdot]
    rfl
  | some i =>
    have hdrop : ((a ++ [c]).drop (i + 1)).getLast? = some c ∨ (a ++ [c]).drop (i + 1) = [] := by
      by_cases hlen : i + 1 ≤ a.length
      · rw [List.drop_append_of_le_length hlen, List.getLast?_concat]
        exact Or.inl rfl
      · apply Or.inr
        apply List.drop_eq_nil_of_le
        rw [List.length_append, List.length_singleton]
        omega
    obtain ⟨hparen, hhash, hdot⟩ := hleaf _ hdrop
    simp only [hparen, hhash, hdot]
    rfl

theorem Unnamed.text_eq (u : Unnamed) :
    ∃ a c, u.text = a ++ [c] ∧ c ≠ '/' ∧ c ≠ '#' ∧ c ≠ '.' := by
  cases u with
  | parameter n => exact ⟨'(' :: n.text, ')', rfl, by decide⟩
  | typeParameter n => exact ⟨'[' :: n.text, ']', rfl, by decide⟩
  | metaDescriptor n => exact ⟨n.text, ':', rfl, by decide⟩
  | macroDescriptor n => exact ⟨n.text, '!', rfl, by decide⟩

theorem descriptorChainKind_namespaces {namespaces : List Ident} (h : 2 ≤ namespaces.length) :
    descriptorChainKind tables (namespacesText namespaces) = none := by
  obtain ⟨init, last, rfl⟩ : ∃ init last, namespaces = init ++ [last] := by
    cases List.eq_nil_or_concat namespaces with
    | inl hnil => simp [hnil] at h
    | inr hconcat =>
      obtain ⟨init, last, rfl⟩ := hconcat
      exact ⟨init, last, List.concat_eq_append⟩
  have htext : namespacesText (init ++ [last]) = (namespacesText init ++ last.text) ++ ['/'] := by
    simp [namespacesText]
  have hslash : '/' ∈ namespacesText init ++ last.text := by
    cases init with
    | nil => simp at h
    | cons n init => simp [namespacesText]
  unfold descriptorChainKind
  rw [htext, stripSuffix_concat]
  dsimp only
  rw [if_pos]
  simp [hslash]

/-- The parser accepts the grammar: a definition gives its last type, its leaf and its kind, with a
scope given as its word; a chain that ends in another descriptor, in several namespaces, or a local
symbol, gives nothing. -/
theorem scipNameKind_grammar (tables : CharTables) (m : Metadata) :
    (∀ namespaces types leaf, ∃ container name,
      scipNameKind tables (symbolText m (chainText namespaces types leaf)) =
        some ⟨container.map String.ofList, String.ofList name, leaf.kind⟩ ∧
      Option.Rel (Reported tables) (types.getLast?.map Ident.name) container ∧
      Reported tables leaf.ident.name name) ∧
    (∀ (before : List Char) (u : Unnamed),
      scipNameKind tables (symbolText m (before ++ u.text)) = none) ∧
    (∀ namespaces : List Ident, 2 ≤ namespaces.length →
      scipNameKind tables (symbolText m (namespacesText namespaces)) = none) ∧
    ∀ id : List Char, ' ' ∉ id →
      scipNameKind tables (String.ofList ("local".toList ++ ' ' :: id)) = none := by
  refine ⟨?_, ?_, ?_, ?_⟩
  · intro namespaces types leaf
    refine ⟨types.getLast?.map fun t => unwrapMetaContainer tables t.name,
      unwrapMetaContainer tables leaf.ident.name, ?_, ?_, reported_unwrap _⟩
    · rw [scipNameKind_symbol, descriptorChainKind_chain]
    · cases types.getLast? with
      | none => exact .none
      | some t => exact .some (reported_unwrap t.name)
  · intro before u
    obtain ⟨a, c, htext, hc⟩ := u.text_eq
    rw [scipNameKind_symbol, htext, ← List.append_assoc]
    exact descriptorChainKind_end hc
  · intro namespaces h
    rw [scipNameKind_symbol]
    exact descriptorChainKind_namespaces h
  · intro id hid
    have hchain : afterSpaces 4 ("local".toList ++ ' ' :: id) = none := by
      rw [afterSpaces, afterFirst_space (by decide), Option.bind_some, afterSpaces,
        afterFirst_none hid]
      rfl
    rw [scipNameKind, String.toList_ofList, hchain]
    rfl

/-- A scope whose name is a path is reported with its brackets. -/
theorem qualified_scope_keeps_brackets :
    scipNameKind ⟨Char.isAlpha, Char.isAlphanum⟩ (symbolText
      ⟨"scip-ruby".toList, "gem".toList, "app".toList, "1.0".toList, by decide, by decide⟩
      (chainText [] [] (.type (.escaped "<Class:A::B>".toList (by decide) (by simp [backtick]))))) =
    some ⟨none, "<Class:A::B>", .cls⟩ := by
  decide

end Travsr.Indexer
