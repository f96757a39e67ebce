import Travsr.Core.Pieces
import Travsr.Lib.Utf8Text

namespace Travsr.Mcp

open Core Core.Text StackWalk Utf8Text

/-! ### The validators -/

def MAX_ARG_BYTES : Nat := 512

def MAX_LIST_ARG_BYTES : Nat := 4096

/-- A `..` before a separator, alone, or behind the last separator. -/
def hasTraversal (arg : String) : Bool :=
  contains arg "../" || contains arg "..\\" || arg == ".." || endsWith arg "/.." ||
    endsWith arg "\\.."

def colonSecond (arg : String) : Bool := (encode arg.toList)[1]? == some 58

/-- `validate_mcp_arg_with_limit`. -/
def validateMcpArgWithLimit (arg : String) (maxBytes : Nat) (rejectPercent : Bool) :
    Except String Unit :=
  if maxBytes < byteLen arg then .error "argument exceeds maximum length"
  else if contains arg "\x00" then .error "null bytes not permitted in arguments"
  else if rejectPercent && contains arg "%" then
    .error "percent-encoded characters not permitted in arguments"
  else if hasTraversal arg then .error "path traversal not permitted"
  else if startsWith arg "/" || startsWith arg "\\" then .error "absolute paths not permitted"
  else if colonSecond arg then .error "absolute paths not permitted"
  else .ok ()

/-- `validate_mcp_arg`. -/
def validateMcpArg (arg : String) : Except String Unit :=
  validateMcpArgWithLimit arg MAX_ARG_BYTES true

/-- `validate_mcp_file_arg`: the path is never URL-decoded, so a `%` stays a character. -/
def validateMcpFileArg (arg : String) : Except String Unit :=
  validateMcpArgWithLimit arg MAX_ARG_BYTES false

/-- `validate_mcp_list_arg`. -/
def validateMcpListArg (arg : String) : Except String Unit :=
  validateMcpArgWithLimit arg MAX_LIST_ARG_BYTES true

/-! ### Containment -/

def hasDrive (path : List Char) : Bool :=
  path.head?.any Char.isAlpha && (path.drop 1).head? == some ':'

/-- `Path::join` under both separators: an absolute path takes the place of the root. -/
def joined (root path : List Char) : List Char :=
  if path.head?.any isSeparator || hasDrive path then path else root ++ '/' :: path

/-- What is left of a path when `.` and `..` are cancelled: levels up, then names. -/
def normalised (path : List Char) : Nat × List (List Char) :=
  reduce ((splitOn isSeparator path).map segmentMove)

/-- From every root the path leads to the root or below it. -/
def StaysInside (path : List Char) : Prop :=
  ∀ root, ∃ below, normalised (joined root path) =
    ((normalised root).1, (normalised root).2 ++ below)

/-- A relative path without a `..` component and without a drive or a UNC prefix. -/
structure CleanRelative (path : List Char) : Prop where
  relative : path.head?.any isSeparator = false
  noParent : ['.', '.'] ∉ splitOn isSeparator path
  noDrive : hasDrive path = false

/-- `char::is_control`. -/
def isControl (c : Char) : Bool := c.toNat < 32 || (127 ≤ c.toNat && c.toNat < 160)

/-! ### What the checks look for -/

def dots : List Char := ['.', '.']

theorem dots_free : ∀ c ∈ dots, isSeparator c = false := by
  intro c hc
  have h : c = '.' := by simpa [dots] using hc
  rw [h]
  rfl

theorem isSeparator_iff {c : Char} : isSeparator c = true ↔ c = '/' ∨ c = '\\' := by
  simp [isSeparator]

/-- A piece before a separator ends in two dots. -/
def DotsBeforeSeparator (path : List Char) : Prop :=
  ∃ w ∈ (splitOn isSeparator path).dropLast, dots <:+ w

theorem contains_dots (arg : String) :
    (contains arg "../" = true ∨ contains arg "..\\" = true) ↔ DotsBeforeSeparator arg.toList := by
  have hmid : (contains arg "../" = true ∨ contains arg "..\\" = true) ↔
      ∃ d, isSeparator d = true ∧ dots ++ [d] <:+: arg.toList := by
    rw [contains_iff, contains_iff]
    constructor
    · rintro (h | h)
      · exact ⟨'/', rfl, h⟩
      · exact ⟨'\\', rfl, h⟩
    · rintro ⟨d, hd, h⟩
      rcases isSeparator_iff.mp hd with rfl | rfl
      · exact Or.inl h
      · exact Or.inr h
  rw [hmid]
  constructor
  · rintro ⟨d, hd, h⟩
    exact mem_dropLast_of_infix hd dots_free h
  · rintro ⟨w, hw, hsuf⟩
    obtain ⟨d, hd, hin⟩ := infix_of_mem_dropLast hw
    obtain ⟨before, rfl⟩ := hsuf
    exact ⟨d, hd, List.IsInfix.trans ⟨before, [], by simp⟩ hin⟩

theorem ends_dots (arg : String) :
    ((arg == "..") = true ∨ endsWith arg "/.." = true ∨ endsWith arg "\\.." = true) ↔
      (splitOn isSeparator arg.toList).getLast? = some dots := by
  have hend (pat : String) : endsWith arg pat = true ↔ pat.toList <:+ arg.toList :=
    List.isSuffixOf_iff_suffix
  rw [hend, hend, beq_iff_eq]
  constructor
  · rintro (rfl | h | h)
    · rfl
    · exact getLast_of_suffix (d := '/') rfl dots_free h
    · exact getLast_of_suffix (d := '\\') rfl dots_free h
  · intro h
    rcases suffix_of_getLast h with hall | ⟨d, hd, hsuf⟩
    · exact Or.inl (String.toList_inj.mp hall)
    · rcases isSeparator_iff.mp hd with rfl | rfl
      · exact Or.inr (Or.inl hsuf)
      · exact Or.inr (Or.inr hsuf)

theorem hasTraversal_iff (arg : String) :
    hasTraversal arg = false ↔
      dots ∉ splitOn isSeparator arg.toList ∧ ¬ DotsBeforeSeparator arg.toList := by
  have hor : hasTraversal arg = true ↔
      DotsBeforeSeparator arg.toList ∨
        (splitOn isSeparator arg.toList).getLast? = some dots := by
    rw [← contains_dots, ← ends_dots, hasTraversal]
    simp only [Bool.or_eq_true]
    tauto
  have hne := splitOn_ne_nil isSeparator arg.toList
  have hmem : dots ∈ splitOn isSeparator arg.toList ↔
      dots ∈ (splitOn isSeparator arg.toList).dropLast ∨
        (splitOn isSeparator arg.toList).getLast? = some dots := by
    have h := List.dropLast_append_getLast hne
    rw [List.getLast?_eq_some_getLast hne, Option.some.injEq]
    conv_lhs => rw [← h]
    rw [List.mem_append, List.mem_singleton, eq_comm (a := dots)]
  have hdrop : dots ∈ (splitOn isSeparator arg.toList).dropLast →
      DotsBeforeSeparator arg.toList := fun h => ⟨dots, h, List.suffix_refl dots⟩
  rw [← Bool.not_eq_true, hor, hmem]
  tauto

/-! ### The second byte -/

theorem colonSecond_iff {arg : String} :
    colonSecond arg = true ↔ ∃ c rest, arg.toList = c :: ':' :: rest ∧ c.toNat < 128 := by
  rw [colonSecond, beq_iff_eq]
  cases hs : arg.toList with
  | nil => simp
  | cons c cs =>
    rw [encode_cons]
    have hpos := List.length_pos_of_ne_nil (encodeChar_ne_nil c)
    by_cases hone : c.toNat < 128
    · have hval : c.val.toNat ≤ 0x7f := by
        have h : c.val.toNat = c.toNat := rfl
        omega
      obtain ⟨b, hc⟩ : ∃ b, String.utf8EncodeChar c = [b] :=
        ⟨_, by simp only [String.utf8EncodeChar, if_pos hval]; rfl⟩
      rw [hc, List.singleton_append, List.getElem?_cons_succ]
      cases cs with
      | nil => simp
      | cons d ds =>
        rw [encode_cons, List.getElem?_append_left (List.length_pos_of_ne_nil (encodeChar_ne_nil d))]
        constructor
        · intro h
          have hmem : (58 : UInt8) ∈ String.utf8EncodeChar d := List.mem_of_getElem? h
          have hd := ofNat_of_mem_encodeChar hmem (by decide)
          exact ⟨c, ds, by rw [← hd]; rfl, hone⟩
        · rintro ⟨c', rest, heq, -⟩
          simp only [List.cons.injEq] at heq
          rw [heq.2.1]
          rfl
    · have hlen : 1 < (String.utf8EncodeChar c).length := by
        have hval : ¬ c.val.toNat ≤ 0x7f := by
          have h : c.val.toNat = c.toNat := rfl
          omega
        simp only [String.utf8EncodeChar, if_neg hval]
        split_ifs <;> simp
      rw [List.getElem?_append_left hlen, List.getElem?_eq_getElem hlen]
      constructor
      · intro h
        have hfirst := isFirst_getElem c 1 hlen
        rw [Option.some.inj h] at hfirst
        simp [isFirst] at hfirst
      · rintro ⟨c', rest, heq, hlow⟩
        simp only [List.cons.injEq] at heq
        rw [← heq.1] at hlow
        exact absurd hlow hone

/-! ### Containment of what passes -/

theorem CleanRelative.joined {path : List Char} (h : CleanRelative path) (root : List Char) :
    joined root path = root ++ '/' :: path := by
  rw [Mcp.joined, h.relative, h.noDrive]
  rfl

theorem CleanRelative.levels {path : List Char} (h : CleanRelative path) :
    (normalised path).1 = 0 := by
  have hno : ∀ segs : List (List Char), ['.', '.'] ∉ segs →
      (reduce (segs.map segmentMove)).1 = 0 := by
    intro segs hsegs
    induction segs with
    | nil => rfl
    | cons seg segs ih =>
      have hseg : seg ≠ ['.', '.'] := fun heq => hsegs (heq ▸ List.mem_cons_self)
      have hrest := ih fun hmem => hsegs (List.mem_cons_of_mem seg hmem)
      rw [List.map_cons, segmentMove]
      by_cases hstay : seg = [] ∨ seg = ['.']
      · rw [if_pos hstay, reduce, hrest]
      · rw [if_neg hstay, if_neg hseg, reduce, if_pos hrest]
  exact hno _ h.noParent

theorem CleanRelative.staysInside {path : List Char} (h : CleanRelative path) :
    StaysInside path := by
  intro root
  refine ⟨(normalised path).2, ?_⟩
  rw [h.joined, normalised, splitOn_append_separator (by rfl), List.map_append]
  exact reduce_append_of_levels _ h.levels

theorem startsWith_separator (arg : String) :
    (startsWith arg "/" || startsWith arg "\\") = arg.toList.head?.any isSeparator := by
  cases hs : arg.toList with
  | nil => simp [startsWith, hs]
  | cons c cs =>
    have hone (d : Char) : List.isPrefixOf [d] (c :: cs) = decide (c = d) := by
      rw [List.isPrefixOf, List.isPrefixOf, Bool.and_true, Bool.beq_comm, beq_eq_decide]
    rw [startsWith, startsWith, hs]
    exact congrArg₂ Bool.or (hone '/') (hone '\\')

theorem hasDrive_of_colonSecond {arg : String} (h : colonSecond arg = false) :
    hasDrive arg.toList = false := by
  by_contra hdrive
  rw [Bool.not_eq_false, hasDrive, Bool.and_eq_true, beq_iff_eq] at hdrive
  have hcolon : colonSecond arg = true := by
    rw [colonSecond_iff]
    cases hs : arg.toList with
    | nil => simp [hs] at hdrive
    | cons c cs =>
      rw [hs] at hdrive
      cases cs with
      | nil => simp at hdrive
      | cons d ds =>
        simp only [List.head?_cons, Option.any_some, List.drop_succ_cons, List.drop_zero,
          Option.some.injEq] at hdrive
        refine ⟨c, ds, by rw [hdrive.2], ?_⟩
        have hnum : c.isAlphanum = true := by simp [Char.isAlphanum, hdrive.1]
        have hcases := isAlphanum_iff.mp hnum
        omega
  rw [hcolon] at h
  exact Bool.noConfusion h

theorem accepted_iff {arg : String} {maxBytes : Nat} {rejectPercent : Bool} :
    validateMcpArgWithLimit arg maxBytes rejectPercent = .ok () ↔
      byteLen arg ≤ maxBytes ∧ '\x00' ∉ arg.toList ∧
      (rejectPercent = true → '%' ∉ arg.toList) ∧ CleanRelative arg.toList ∧
      ¬ DotsBeforeSeparator arg.toList ∧ colonSecond arg = false := by
  have hnul : contains arg "\x00" = true ↔ '\x00' ∈ arg.toList := contains_char (by rfl)
  have hpercent : contains arg "%" = true ↔ '%' ∈ arg.toList := contains_char (by rfl)
  have hdots := hasTraversal_iff arg
  have hseps := startsWith_separator arg
  unfold validateMcpArgWithLimit
  constructor
  · intro h
    split_ifs at h with hlen hnull hper htrav habs hcolon
    rw [Bool.not_eq_true] at htrav habs hcolon
    have hparts := hdots.mp htrav
    refine ⟨by omega, fun hmem => hnull (hnul.mpr hmem), ?_, ?_, hparts.2, hcolon⟩
    · intro hrej hmem
      exact hper (by rw [hrej, hpercent.mpr hmem]; rfl)
    · exact ⟨hseps ▸ habs, hparts.1, hasDrive_of_colonSecond hcolon⟩
  · rintro ⟨hlen, hnull, hper, hclean, hbefore, hcolon⟩
    rw [if_neg (by omega), if_neg (fun h => hnull (hnul.mp h)), if_neg, if_neg, if_neg, if_neg]
    · rw [hcolon]
      exact Bool.false_ne_true
    · rw [hseps, hclean.relative]
      exact Bool.false_ne_true
    · rw [hdots.mpr ⟨hclean.noParent, hbefore⟩]
      exact Bool.false_ne_true
    · rw [Bool.and_eq_true, hpercent]
      exact fun h => hper h.1 h.2

/-- A path argument that passes stays inside every root. A clean relative path passes unless it
holds a NUL, dots before a separator or a colon in its second byte, or a percent sign where that is
refused. -/
theorem pathArgs_contained (arg : String) :
    (validateMcpFileArg arg = .ok () ∨ validateMcpArg arg = .ok () →
      CleanRelative arg.toList ∧ '\x00' ∉ arg.toList ∧ StaysInside arg.toList) ∧
    (CleanRelative arg.toList → byteLen arg ≤ MAX_ARG_BYTES →
      (validateMcpFileArg arg = .ok () ↔ '\x00' ∉ arg.toList ∧
        ¬ DotsBeforeSeparator arg.toList ∧ colonSecond arg = false) ∧
      (validateMcpArg arg = .ok () ↔ '\x00' ∉ arg.toList ∧ '%' ∉ arg.toList ∧
        ¬ DotsBeforeSeparator arg.toList ∧ colonSecond arg = false)) := by
  have hfile := @accepted_iff arg MAX_ARG_BYTES false
  have harg := @accepted_iff arg MAX_ARG_BYTES true
  rw [validateMcpFileArg, validateMcpArg, hfile, harg]
  constructor
  · rintro (⟨-, hnul, -, hclean, -⟩ | ⟨-, hnul, -, hclean, -⟩)
    · exact ⟨hclean, hnul, hclean.staysInside⟩
    · exact ⟨hclean, hnul, hclean.staysInside⟩
  · intro hclean hlen
    simp [hclean, hlen]

/-- A clean relative path of an allowed length that holds no control character. -/
def CleanPath (arg : String) : Prop :=
  CleanRelative arg.toList ∧ arg.toList.any isControl = false ∧ byteLen arg ≤ MAX_ARG_BYTES

/-- A newline passes, and a clean path of every refused kind is turned away. -/
theorem clean_paths_turned_away :
    (validateMcpFileArg "a\nb" = .ok () ∧ "a\nb".toList.any isControl = true) ∧
    (CleanPath "a../b" ∧ validateMcpFileArg "a../b" ≠ .ok ()) ∧
    (CleanPath "1:b" ∧ validateMcpFileArg "1:b" ≠ .ok ()) ∧
    (CleanPath "100%" ∧ validateMcpArg "100%" ≠ .ok ()) := by
  have hclean {arg : String} (h : (arg.toList.head?.any isSeparator = false ∧
      dots ∉ splitOn isSeparator arg.toList ∧ hasDrive arg.toList = false) ∧
      arg.toList.any isControl = false ∧ byteLen arg ≤ MAX_ARG_BYTES) : CleanPath arg :=
    ⟨⟨h.1.1, h.1.2.1, h.1.2.2⟩, h.2⟩
  exact ⟨⟨by rfl, by rfl⟩, ⟨hclean (by decide), nofun⟩, ⟨hclean (by decide), nofun⟩,
    hclean (by decide), nofun⟩

end Travsr.Mcp
