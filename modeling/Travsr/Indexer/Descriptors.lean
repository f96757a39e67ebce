import Travsr.Indexer.ScipUnifier

namespace Travsr.Indexer

open Travsr.Core.Text

/-! ### Stretches of a descriptor chain -/

/-- A search for `ch` passes the stretch without finding it, and is outside backticks after it. -/
def Passes (ch : Char) (a : List Char) : Prop :=
  ∀ b i found, rfindFrom ch (a ++ b) i false found = rfindFrom ch b (i + a.length) false found

/-- A search for `ch` is outside backticks after the stretch. -/
def Balanced (ch : Char) (a : List Char) : Prop :=
  ∀ b i found, ∃ found',
    rfindFrom ch (a ++ b) i false found = rfindFrom ch b (i + a.length) false found'

def Segment (a : List Char) : Prop := Passes '/' a ∧ Passes '#' a ∧ Passes '(' a

theorem Passes.append {ch : Char} {a b : List Char} (ha : Passes ch a) (hb : Passes ch b) :
    Passes ch (a ++ b) := by
  intro c i found
  rw [List.append_assoc, ha, hb, List.length_append, Nat.add_assoc]

theorem passes_plain {ch : Char} {a : List Char} (h : ∀ x ∈ a, x ≠ backtick ∧ x ≠ ch) :
    Passes ch a := by
  intro b i found
  induction a generalizing i with
  | nil => rfl
  | cons x a ih =>
    obtain ⟨htick, hch⟩ := h x List.mem_cons_self
    rw [List.cons_append, rfindFrom, if_neg htick, if_neg (by simp [hch]),
      ih (fun y hy => h y (List.mem_cons_of_mem x hy)), List.length_cons]
    congr 1
    omega

theorem passes_singleton {ch x : Char} (htick : x ≠ backtick) (hch : x ≠ ch) : Passes ch [x] :=
  passes_plain fun y hy => by
    rw [List.mem_singleton.mp hy]
    exact ⟨htick, hch⟩

theorem rfindFrom_quoted {ch : Char} {m : List Char} (h : ∀ x ∈ m, x ≠ backtick) (b : List Char)
    (i : Nat) (found : Option Nat) :
    rfindFrom ch (m ++ backtick :: b) i true found =
      rfindFrom ch b (i + m.length + 1) false found := by
  induction m generalizing i with
  | nil =>
    rw [List.nil_append, rfindFrom, if_pos rfl]
    rfl
  | cons x m ih =>
    rw [List.cons_append, rfindFrom, if_neg (h x List.mem_cons_self), if_neg (by simp),
      ih (fun y hy => h y (List.mem_cons_of_mem x hy)), List.length_cons]
    congr 1
    omega

def quoted (m : List Char) : List Char := backtick :: (m ++ [backtick])

theorem passes_quoted {ch : Char} {m : List Char} (h : ∀ x ∈ m, x ≠ backtick) :
    Passes ch (quoted m) := by
  intro b i found
  rw [quoted, List.cons_append, rfindFrom, if_pos rfl, List.append_assoc]
  show rfindFrom ch (m ++ backtick :: b) (i + 1) true found = _
  rw [rfindFrom_quoted h]
  congr 1
  simp only [List.length_cons, List.length_append, List.length_nil]
  omega

theorem Passes.balanced {ch : Char} {a : List Char} (h : Passes ch a) : Balanced ch a :=
  fun b i found => ⟨found, h b i found⟩

theorem balanced_plain {ch : Char} {a : List Char} (h : backtick ∉ a) : Balanced ch a := by
  intro b i found
  induction a generalizing i found with
  | nil => exact ⟨found, rfl⟩
  | cons x a ih =>
    have htick : x ≠ backtick := fun hx => h (hx ▸ List.mem_cons_self)
    have hrest : backtick ∉ a := fun ha => h (List.mem_cons_of_mem x ha)
    have hlen : i + 1 + a.length = i + (x :: a).length := by
      rw [List.length_cons]
      omega
    rw [List.cons_append, rfindFrom, if_neg htick, ← hlen]
    split_ifs
    · exact ih hrest (i + 1) (some i)
    · exact ih hrest (i + 1) found

/-- The last `ch` stands before a stretch without one. -/
theorem rfindOutsideBackticks_append {ch : Char} {a b : List Char} (hch : ch ≠ backtick)
    (ha : Balanced ch a) (hb : Passes ch b) : rfindOutsideBackticks (a ++ ch :: b) ch = some a.length := by
  obtain ⟨found, hfound⟩ := ha (ch :: b) 0 none
  have hlast := hb [] (0 + a.length + 1) (some (0 + a.length))
  rw [List.append_nil] at hlast
  rw [rfindOutsideBackticks, hfound, rfindFrom, if_neg hch, if_pos (by simp), hlast, rfindFrom,
    Nat.zero_add]

theorem rfindOutsideBackticks_none {ch : Char} {a : List Char} (ha : Passes ch a) :
    rfindOutsideBackticks a ch = none := by
  have h := ha [] 0 none
  rw [List.append_nil] at h
  rw [rfindOutsideBackticks, h]
  rfl

/-! ### The descriptors of a method -/

def Packages (pre : List Char) : Prop :=
  pre = [] ∨ ∃ p, pre = p ++ ['/'] ∧ Balanced '/' p

/-- The text of `C#n(d).` after its packages. -/
def methodDescriptors (pre c n d : List Char) : List Char :=
  pre ++ (c ++ '#' :: n ++ '(' :: (d ++ [')', '.']))

theorem splitContainer_member (tables : CharTables) {c n : List Char} (hc : Passes '#' c)
    (hn : Passes '#' n) :
    splitContainer tables (c ++ '#' :: n) =
      (if (unwrapMetaContainer tables (stripBackticks c)).isEmpty then none
        else some (String.ofList (unwrapMetaContainer tables (stripBackticks c))),
      unwrapMetaContainer tables (stripBackticks n)) := by
  have hfind : rfindOutsideBackticks (c ++ '#' :: n) '#' = some c.length :=
    rfindOutsideBackticks_append (by decide) hc.balanced hn
  have htake : (c ++ '#' :: n).take c.length = c := by simp
  have hdrop : (c ++ '#' :: n).drop (c.length + 1) = n := by simp [List.drop_append]
  rw [splitContainer, hfind]
  dsimp only
  rw [htake, hdrop, rfindOutsideBackticks_none hc]

theorem descriptorChainKind_method (tables : CharTables) {pre c n d : List Char}
    (hpre : Packages pre) (hc : Segment c) (hn : Segment n)
    (hd : ∀ x ∈ d, x ≠ backtick ∧ x ≠ '/' ∧ x ≠ '(') {container name : List Char}
    (hcontainer : unwrapMetaContainer tables (stripBackticks c) = container)
    (hname : unwrapMetaContainer tables (stripBackticks n) = name)
    (hcne : container ≠ []) (hnne : name ≠ []) :
    descriptorChainKind tables (methodDescriptors pre c n d) =
      some ⟨some (String.ofList container), String.ofList name, .function⟩ := by
  let leaf := c ++ '#' :: n ++ '(' :: (d ++ [')', '.'])
  have hslash : stripSuffix '/' (methodDescriptors pre c n d) = none := by
    have hlast : methodDescriptors pre c n d =
        pre ++ (c ++ '#' :: n ++ '(' :: (d ++ [')'])) ++ ['.'] := by
      simp [methodDescriptors]
    unfold stripSuffix
    rw [if_neg]
    rw [hlast, List.getLast?_concat]
    decide
  have hend : ∀ ch, ch ≠ ')' → ch ≠ '.' → (∀ x ∈ d, x ≠ backtick ∧ x ≠ ch) →
      Passes ch (d ++ [')', '.']) := by
    intro ch hparen hdot hd'
    have hparen' : Passes ch [')'] := passes_singleton (by decide) hparen.symm
    have hdot' : Passes ch ['.'] := passes_singleton (by decide) hdot.symm
    exact (passes_plain hd').append (hparen'.append hdot')
  have hleaf : Passes '/' leaf := by
    have hhash : Passes '/' ['#'] := passes_singleton (by decide) (by decide)
    have hparen : Passes '/' ['('] := passes_singleton (by decide) (by decide)
    have h := ((hc.1.append (hhash.append hn.1)).append (hparen.append (hend '/' (by decide)
      (by decide) fun x hx => ⟨(hd x hx).1, (hd x hx).2.1⟩)))
    simpa [leaf] using h
  have hwhole : (∃ i, rfindOutsideBackticks (methodDescriptors pre c n d) '/' = some i ∧
      (methodDescriptors pre c n d).drop (i + 1) = leaf) ∨
      (methodDescriptors pre c n d = leaf ∧ rfindOutsideBackticks leaf '/' = none) := by
    rcases hpre with rfl | ⟨p, rfl, hp⟩
    · exact .inr ⟨rfl, rfindOutsideBackticks_none hleaf⟩
    · have heq : methodDescriptors (p ++ ['/']) c n d = p ++ '/' :: leaf := by
        simp [methodDescriptors, leaf]
      refine .inl ⟨p.length, ?_, ?_⟩
      · rw [heq]
        exact rfindOutsideBackticks_append (by decide) hp hleaf
      · rw [heq]
        simp [List.drop_append]
  have hsuffix : ").".toList.isSuffixOf leaf = true := by
    rw [List.isSuffixOf_iff_suffix]
    exact ⟨c ++ '#' :: n ++ '(' :: d, by simp [leaf]⟩
  have hmember : Passes '(' (c ++ '#' :: n) := by
    have hhash : Passes '(' ['#'] := passes_singleton (by decide) (by decide)
    simpa using hc.2.2.append (hhash.append hn.2.2)
  have hopen : rfindOutsideBackticks leaf '(' = some (c ++ '#' :: n).length :=
    rfindOutsideBackticks_append (by decide) hmember.balanced
      (hend '(' (by decide) (by decide) fun x hx => ⟨(hd x hx).1, (hd x hx).2.2⟩)
  have htake : leaf.take (c ++ '#' :: n).length = c ++ '#' :: n := List.take_left
  have hnamed : named (splitContainer tables (c ++ '#' :: n)) .function =
      some ⟨some (String.ofList container), String.ofList name, .function⟩ := by
    rw [splitContainer_member tables hc.2.1 hn.2.1, hcontainer, hname]
    simp [named, hcne, hnne]
  unfold descriptorChainKind
  rw [hslash]
  dsimp only
  rcases hwhole with ⟨i, hi, hdrop⟩ | ⟨heq, hnone⟩
  · simp only [hi, hdrop]
    rw [if_pos hsuffix, hopen, Option.bind_some, htake, hnamed]
  · simp only [heq, hnone]
    rw [if_pos hsuffix, hopen, Option.bind_some, htake, hnamed]

theorem stripPrefix_of_head {pat : String} {x : Char} {a : List Char} (hpat : pat.toList = [x])
    (h : a.head? ≠ some x) : stripPrefix pat a = none := by
  unfold stripPrefix
  rw [hpat, if_neg]
  intro hpre
  obtain ⟨rest, rfl⟩ := List.isPrefixOf_iff_prefix.mp hpre
  exact h rfl

theorem bracketed_of_head {a : List Char} (h : a.head? ≠ some '<') : bracketed a = none := by
  rw [bracketed, stripPrefix_of_head rfl h]
  rfl

theorem unwrap_plain (tables : CharTables) {a : List Char} (htick : a.head? ≠ some backtick)
    (hangle : a.head? ≠ some '<') : unwrapMetaContainer tables (stripBackticks a) = a := by
  have hstrip : stripBackticks a = a := if_neg fun h => htick h.2.1
  rw [hstrip, unwrapMetaContainer, bracketed_of_head hangle]
  rfl

theorem stripBackticks_quoted (m : List Char) : stripBackticks (quoted m) = m := by
  have hlen : 2 ≤ (quoted m).length := by
    simp [quoted]
  have hlast : (quoted m).getLast? = some backtick := by
    rw [quoted, ← List.cons_append, List.getLast?_concat]
  rw [stripBackticks, if_pos ⟨hlen, rfl, hlast⟩]
  show (m ++ [backtick]).dropLast = m
  exact List.dropLast_concat

theorem unwrap_marker (tables : CharTables) {m : List Char}
    (h : m = ".ctor".toList ∨ m = "<init>".toList) :
    unwrapMetaContainer tables (stripBackticks (quoted m)) = m := by
  rw [stripBackticks_quoted]
  rcases h with rfl | rfl
  · rfl
  · rfl

theorem segment_plain {a : List Char}
    (h : ∀ x ∈ a, x ≠ backtick ∧ x ≠ '/' ∧ x ≠ '#' ∧ x ≠ '(') : Segment a :=
  ⟨passes_plain fun x hx => ⟨(h x hx).1, (h x hx).2.1⟩,
    passes_plain fun x hx => ⟨(h x hx).1, (h x hx).2.2.1⟩,
    passes_plain fun x hx => ⟨(h x hx).1, (h x hx).2.2.2⟩⟩

theorem segment_quoted {m : List Char} (h : ∀ x ∈ m, x ≠ backtick) : Segment (quoted m) :=
  ⟨passes_quoted h, passes_quoted h, passes_quoted h⟩

end Travsr.Indexer
