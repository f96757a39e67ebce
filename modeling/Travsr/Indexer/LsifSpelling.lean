import Travsr.Core.ImporterDirectory
import Travsr.Indexer.LsifPositional

open Travsr.Core Travsr.Core.Text

namespace Travsr.Indexer.Lsif

/-! ### Percent escapes -/

def hexDigit (upper : Bool) (n : Nat) : Char :=
  if upper then (Nat.digitChar n).toUpper else Nat.digitChar n

def escapeByte (upper : Bool) (b : UInt8) : List Char :=
  ['%', hexDigit upper (b.toNat / 16), hexDigit upper (b.toNat % 16)]

/-- A text, percent-escaped: each character stands for itself or for the escapes of its bytes. -/
inductive Escapes : List Char → List Char → Prop where
  | nil : Escapes [] []
  | char {c : Char} {enc text : List Char} (h : c ≠ '%') (rest : Escapes enc text) :
    Escapes (c :: enc) (c :: text)
  | escaped {c : Char} {enc text : List Char} (bytes : List (Bool × UInt8))
    (h : bytes.map Prod.snd = String.utf8EncodeChar c) (rest : Escapes enc text) :
    Escapes (bytes.flatMap (fun b => escapeByte b.1 b.2) ++ enc) (c :: text)

def Escaping (c : Char) : Prop := c ∉ ['/', '\\', ':', '?']

variable {enc text : List Char}

theorem escapeByte_escaping (upper : Bool) (b : UInt8) : ∀ c ∈ escapeByte upper b, Escaping c := by
  have hdigit : ∀ n < 16, ∀ u, Escaping (hexDigit u n) := by
    unfold Escaping
    decide
  have hhigh : b.toNat / 16 < 16 := Nat.div_lt_of_lt_mul b.toNat_lt
  have hlow : b.toNat % 16 < 16 := Nat.mod_lt _ (by decide)
  intro c hc
  unfold escapeByte at hc
  rcases List.mem_cons.mp hc with rfl | hc
  · unfold Escaping
    decide
  rcases List.mem_cons.mp hc with rfl | hc
  · exact hdigit _ hhigh upper
  · rw [List.mem_singleton.mp hc]
    exact hdigit _ hlow upper

theorem Escapes.mem (h : Escapes enc text) {c : Char} (hc : c ∈ enc) : c ∈ text ∨ Escaping c := by
  induction h with
  | nil => exact absurd hc List.not_mem_nil
  | char _ _ ih =>
    rcases List.mem_cons.mp hc with rfl | hc
    · exact Or.inl List.mem_cons_self
    · exact (ih hc).imp_left fun h => List.mem_cons_of_mem _ h
  | escaped bytes _ _ ih =>
    rcases List.mem_append.mp hc with hc | hc
    · obtain ⟨b, -, hb⟩ := List.mem_flatMap.mp hc
      exact Or.inr (escapeByte_escaping b.1 b.2 c hb)
    · exact (ih hc).imp_left fun h => List.mem_cons_of_mem _ h

theorem length_escapes (bytes : List (Bool × UInt8)) :
    (bytes.flatMap fun b => escapeByte b.1 b.2).length = 3 * bytes.length := by
  induction bytes with
  | nil => rfl
  | cons b bytes ih =>
    have hone : (escapeByte b.1 b.2).length = 3 := rfl
    rw [List.flatMap_cons, List.length_append, ih, hone, List.length_cons]
    omega

theorem Escapes.eq_or_longer (h : Escapes enc text) : enc = text ∨ text.length < enc.length := by
  induction h with
  | nil => exact Or.inl rfl
  | char _ _ ih =>
    rcases ih with rfl | ih
    · exact Or.inl rfl
    · exact Or.inr (Nat.succ_lt_succ ih)
  | @escaped c enc text bytes h _ ih =>
    right
    have hpos : 0 < bytes.length := by
      have hlen := congrArg List.length h
      rw [List.length_map, String.length_utf8EncodeChar] at hlen
      exact hlen ▸ c.utf8Size_pos
    rw [List.length_append, List.length_cons, length_escapes]
    rcases ih with rfl | ih <;> omega

theorem Escapes.ne_nil (h : Escapes enc text) (hne : text ≠ []) : enc ≠ [] := by
  rintro rfl
  rcases h.eq_or_longer with heq | hlt
  · exact hne heq.symm
  · exact absurd hlt (Nat.not_lt_zero _)

/-! ### Directories -/

def dirText (comps : List (List Char)) : List Char := comps.flatMap fun c => c ++ ['/']

/-- Names between slashes. -/
def Components (comps : List (List Char)) : Prop := ∀ c ∈ comps, c ≠ [] ∧ '/' ∉ c

variable {comps encs rel : List (List Char)}

theorem joinSlash_append (hrel : rel ≠ []) (dir : List (List Char)) :
    joinSlash (dir ++ rel) = dirText dir ++ joinSlash rel := by
  induction dir with
  | nil => rfl
  | cons c dir ih =>
    have hne : dir ++ rel ≠ [] := by simp [hrel]
    have hjoin : joinSlash (dir ++ rel) = List.intercalate ['/'] (dir ++ rel) := rfl
    have hdir : dirText (c :: dir) = c ++ ['/'] ++ dirText dir := rfl
    rw [List.cons_append, joinSlash, List.intercalate_cons_of_ne_nil hne, ← hjoin, ih, hdir,
      List.append_assoc, List.append_assoc, List.append_assoc]

theorem dirText_eq (hne : comps ≠ []) : dirText comps = joinSlash comps ++ ['/'] := by
  rw [← List.dropLast_append_getLast hne, joinSlash_append (List.cons_ne_nil _ _), dirText,
    List.flatMap_append]
  simp only [joinSlash, List.intercalate_singleton, List.flatMap_cons, List.flatMap_nil,
    List.append_nil, List.append_assoc, dirText]

theorem joinSlash_ne_nil (hne : comps ≠ []) (hcomps : Components comps) : joinSlash comps ≠ [] := by
  obtain ⟨c, rest, rfl⟩ := List.exists_cons_of_ne_nil hne
  have hc := (hcomps c List.mem_cons_self).1
  cases rest with
  | nil => rw [joinSlash, List.intercalate_singleton]; exact hc
  | cons d rest =>
    rw [joinSlash, List.intercalate_cons_of_ne_nil (List.cons_ne_nil _ _)]
    simp [hc]

theorem head?_joinSlash (hcomps : Components comps) :
    (joinSlash comps).head? = comps.head?.bind List.head? := by
  cases comps with
  | nil => rfl
  | cons c rest =>
    have hc := (hcomps c List.mem_cons_self).1
    cases rest with
    | nil => rw [joinSlash, List.intercalate_singleton]; rfl
    | cons d rest =>
      rw [joinSlash, List.intercalate_cons_of_ne_nil (List.cons_ne_nil _ _),
        List.append_assoc, List.head?_append_of_ne_nil _ hc]
      rfl

theorem head?_joinSlash_ne_slash (hcomps : Components comps) : (joinSlash comps).head? ≠ some '/' := by
  rw [head?_joinSlash hcomps]
  cases comps with
  | nil => exact fun h => nomatch h
  | cons c rest =>
    intro h
    exact (hcomps c List.mem_cons_self).2 (List.mem_of_head? h)

theorem joinSlash_eq_or_longer (h : List.Forall₂ Escapes encs comps) :
    encs = comps ∨ (joinSlash comps).length < (joinSlash encs).length := by
  induction h with
  | nil => exact Or.inl rfl
  | @cons enc text encs comps hone hrest ih =>
    cases hrest with
    | nil =>
      rw [joinSlash, joinSlash, List.intercalate_singleton, List.intercalate_singleton]
      rcases hone.eq_or_longer with rfl | hlt
      · exact Or.inl rfl
      · exact Or.inr hlt
    | @cons enc' text' encs comps htwo hrest =>
      have hlen (x : List Char) (y : List Char) (zs : List (List Char)) :
          (joinSlash (x :: y :: zs)).length = x.length + 1 + (joinSlash (y :: zs)).length := by
        rw [joinSlash, List.intercalate_cons_of_ne_nil (List.cons_ne_nil _ _)]
        rw [List.length_append, List.length_append]
        rfl
      rw [hlen, hlen]
      rcases hone.eq_or_longer with rfl | hlt
      · rcases ih with heq | ih
        · exact Or.inl (congrArg _ heq)
        · exact Or.inr (by omega)
      · rcases ih with heq | ih
        · rw [heq]
          exact Or.inr (by omega)
        · exact Or.inr (by omega)

theorem escapes_of_mem (h : List.Forall₂ Escapes encs comps) :
    ∀ enc ∈ encs, ∃ text ∈ comps, Escapes enc text := by
  induction h with
  | nil => exact fun _ h => absurd h List.not_mem_nil
  | cons hone _ ih =>
    intro enc henc
    rcases List.mem_cons.mp henc with rfl | henc
    · exact ⟨_, List.mem_cons_self, hone⟩
    · obtain ⟨text, htext, hesc⟩ := ih enc henc
      exact ⟨text, List.mem_cons_of_mem _ htext, hesc⟩

theorem Components.escaped (hcomps : Components comps) (h : List.Forall₂ Escapes encs comps) :
    Components encs := by
  intro enc henc
  obtain ⟨text, htext, hesc⟩ := escapes_of_mem h enc henc
  obtain ⟨hne, hslash⟩ := hcomps text htext
  refine ⟨hesc.ne_nil hne, fun hmem => ?_⟩
  rcases hesc.mem hmem with hmem | hno
  · exact hslash hmem
  · exact hno List.mem_cons_self

/-! ### Spellings -/

/-- Where a path begins. -/
inductive Anchor where
  | unix
  | drive (letter : Char)
  | unc
deriving DecidableEq

/-- How the repository root begins: at the Unix root; with a drive, with or without a verbatim mark;
or with a network share, behind a verbatim mark or two slashes. -/
inductive RootForm where
  | unix
  | drive (verbatim : Option Slashes) (letter : Char)
  | unc (verbatim : Option Slashes)
deriving DecidableEq

/-- How the path of a URI begins; the server of a network share may be its authority. A drive's
colon may be escaped. -/
inductive UriForm where
  | unix
  | drive (verbatim : Option Slashes) (letter : Char) (colon : List Char)
  | unc (verbatim : Option Slashes) (authority : Bool)
deriving DecidableEq

def RootForm.anchor : RootForm → Anchor
  | .unix => .unix
  | .drive _ letter => .drive letter.toLower
  | .unc _ => .unc

def UriForm.anchor : UriForm → Anchor
  | .unix => .unix
  | .drive _ letter _ => .drive letter.toLower
  | .unc _ _ => .unc

def driveMark (v : Option Slashes) : List Char := (v.map Slashes.mark).getD []

def RootForm.lead : RootForm → List Char
  | .unix => []
  | .drive v _ => driveMark v
  | .unc (some v) => v.uncMark
  | .unc none => []

def RootForm.opening : RootForm → List Char
  | .unix => ['/']
  | .drive _ letter => [letter, ':', '/']
  | .unc (some _) => []
  | .unc none => ['/', '/']

def UriForm.lead : UriForm → List Char
  | .unix => []
  | .drive none _ _ => ['/']
  | .drive (some v) _ _ => v.mark
  | .unc (some v) _ => v.uncMark
  | .unc none _ => []

def UriForm.opening : UriForm → List Char
  | .unix => ['/']
  | .drive _ letter colon => letter :: colon ++ ['/']
  | .unc (some _) _ => []
  | .unc none authority => if authority then [] else ['/', '/']

def Anchor.separators (a : Anchor) (s : List Char) : List Char := if a = .unix then s else slashed s

/-- The names of a path: on Windows none holds a backslash, and a share begins with its server. -/
def Anchor.Names (a : Anchor) (comps : List (List Char)) : Prop :=
  Components comps ∧ (a ≠ .unix → ∀ c ∈ comps, '\\' ∉ c) ∧
    (a = .unc → ∃ server rest, comps = server :: rest ∧ ':' ∉ server ∧ '?' ∉ server)

/-- A spelling of the repository root. -/
structure Root where
  form : RootForm
  comps : List (List Char)
  trailing : Bool
  tail : List Char
  names : form.anchor.Names comps
  letter : ∀ v l, form = .drive v l → l.isAlpha = true
  spelled : form.anchor.separators tail =
    form.opening ++ if trailing then dirText comps else (dirText comps).dropLast

def Root.path (r : Root) : List Char := r.form.lead ++ r.tail

/-- A spelling of a document's URI. -/
structure Uri where
  form : UriForm
  comps : List (List Char)
  encs : List (List Char)
  tail : List Char
  names : form.anchor.Names comps
  escapes : List.Forall₂ Escapes encs comps
  letter : ∀ v l colon, form = .drive v l colon → l.isAlpha = true ∧ Escapes colon [':']
  spelled : form.anchor.separators tail = form.opening ++ joinSlash encs

def Uri.uri (u : Uri) : List Char := "file://".toList ++ (u.form.lead ++ u.tail)

/-- The document lies in the repository, at the relative path. -/
def Under (root : Root) (u : Uri) (rel : List (List Char)) : Prop :=
  rel ≠ [] ∧ u.form.anchor = root.form.anchor ∧ u.comps = root.comps ++ rel

/-- The code finds the relative path: nothing in the URI is escaped; a drive always; a network share
if both spellings begin with two slashes or neither does; a Unix path if no name below the root holds
a backslash and the root does not end in one. A Unix path whose first name looks like a drive is
found only below the root of the file system, when the letter is in lower case. -/
def Found (root : Root) (u : Uri) (rel : List (List Char)) : Prop :=
  u.encs = u.comps ∧
    match u.form with
    | .unix =>
      if startsDrive (joinSlash u.comps) then
        root.comps = [] ∧ lowerFirst (joinSlash rel) = joinSlash rel ∧ '\\' ∉ joinSlash rel
      else '\\' ∉ joinSlash rel ∧ root.path.getLast? ≠ some '\\'
    | .drive _ _ colon => colon = [':']
    | .unc verbatim authority =>
      (verbatim = none ∧ authority = false) ↔ root.form = .unc none

/-! ### Verbatim marks -/

variable {s : List Char}

theorem strip_append (pat s : List Char) : strip pat (pat ++ s) = some s := by
  rw [strip, if_pos (List.isPrefixOf_iff_prefix.mpr ⟨s, rfl⟩), List.drop_left]

theorem strip_eq_none {pat : List Char} (h : ¬pat <+: s) : strip pat s = none :=
  if_neg fun hpre => h (List.isPrefixOf_iff_prefix.mp hpre)

theorem stripVerbatim_uncMark (v : Slashes) (s : List Char) : stripVerbatim (v.uncMark ++ s) = s := by
  cases v with
  | back => rw [stripVerbatim, strip_append]; rfl
  | forward =>
    have hback : strip Slashes.back.uncMark (Slashes.forward.uncMark ++ s) = none := rfl
    have hmark : strip Slashes.back.mark (Slashes.forward.uncMark ++ s) = none := rfl
    rw [stripVerbatim, hback, hmark, strip_append]
    rfl

theorem stripVerbatim_mark (v : Slashes) {c : Char} (hc : c ≠ 'N') (l : Char) (s : List Char) :
    stripVerbatim (v.mark ++ l :: c :: s) = l :: c :: s := by
  have hunc (v' : Slashes) : strip v'.uncMark (v.mark ++ l :: c :: s) = none := by
    apply strip_eq_none
    intro hpre
    have hc' := (List.prefix_iff_getElem?.mp hpre) 5 (by cases v' <;> decide)
    cases v <;> cases v' <;> exact hc (Option.some.inj hc')
  cases v with
  | back => rw [stripVerbatim, hunc, strip_append]; rfl
  | forward =>
    have hmark : strip Slashes.back.mark (Slashes.forward.mark ++ l :: c :: s) = none := rfl
    rw [stripVerbatim, hunc, hunc, hmark, strip_append]
    rfl

theorem stripVerbatim_of_not (hback : ¬['\\', '\\', '?'] <+: s) (hforward : ¬['/', '/', '?'] <+: s) :
    stripVerbatim s = s := by
  have hunc : strip Slashes.back.uncMark s = none :=
    strip_eq_none fun h => hback (List.IsPrefix.trans ⟨_, rfl⟩ h)
  have hmark : strip Slashes.back.mark s = none :=
    strip_eq_none fun h => hback (List.IsPrefix.trans ⟨_, rfl⟩ h)
  have hunc' : strip Slashes.forward.uncMark s = none :=
    strip_eq_none fun h => hforward (List.IsPrefix.trans ⟨_, rfl⟩ h)
  have hmark' : strip Slashes.forward.mark s = none :=
    strip_eq_none fun h => hforward (List.IsPrefix.trans ⟨_, rfl⟩ h)
  rw [stripVerbatim, hunc, hmark, hunc', hmark']
  rfl

theorem stripVerbatim_of_head (h : ∀ c, s.head? = some c → c ≠ '/' ∧ c ≠ '\\') : stripVerbatim s = s := by
  apply stripVerbatim_of_not
  · rintro ⟨rest, rfl⟩
    exact (h '\\' rfl).2 rfl
  · rintro ⟨rest, rfl⟩
    exact (h '/' rfl).1 rfl

theorem stripVerbatim_slash (h : s.head? ≠ some '/') : stripVerbatim ('/' :: s) = '/' :: s := by
  apply stripVerbatim_of_not
  · rintro ⟨rest, hrest⟩
    injection hrest with hc
    exact absurd hc (by decide)
  · rintro ⟨rest, hrest⟩
    injection hrest with _ hs
    exact h (congrArg List.head? hs.symm)

/-! ### Normal forms -/

theorem head?_slashed (s : List Char) :
    (slashed s).head? = s.head?.map fun c => if c = '\\' then '/' else c := List.head?_map

theorem slashed_append (a b : List Char) : slashed (a ++ b) = slashed a ++ slashed b := List.map_append

theorem slashed_cons {c : Char} (hc : c ≠ '\\') (s : List Char) : slashed (c :: s) = c :: slashed s := by
  rw [slashed, List.map_cons, if_neg hc]
  rfl

theorem length_slashed (s : List Char) : (slashed s).length = s.length := List.length_map _

theorem not_mem_slashed (s : List Char) : '\\' ∉ slashed s := by
  intro hmem
  obtain ⟨c, -, hc⟩ := List.mem_map.mp hmem
  split_ifs at hc with hback
  · exact absurd hc (by decide)
  · exact hback hc

theorem slashed_eq_iff : slashed s = s ↔ '\\' ∉ s :=
  ⟨fun h => h ▸ not_mem_slashed s, slashed_of_not_mem⟩

theorem slashed_eq_cons {c : Char} (hc : c ≠ '/') {rest : List Char} (h : slashed s = c :: rest) :
    ∃ rest', s = c :: rest' ∧ slashed rest' = rest := by
  cases s with
  | nil => exact nomatch h
  | cons d s =>
    injection h with hd hrest
    dsimp only at hd
    split_ifs at hd with hback
    · exact absurd hd.symm hc
    · exact ⟨s, congrArg (· :: s) hd, hrest⟩

theorem lowerDrive_of_not (h : startsDrive s = false) : lowerDrive s = s := by
  rw [lowerDrive, h]
  rfl

theorem startsDrive_slash (s : List Char) : startsDrive ('/' :: s) = false := by
  cases s <;> rfl

theorem ne_of_isAlpha {l : Char} (hl : l.isAlpha = true) {c : Char} (hc : c.isAlpha = false) : l ≠ c := by
  rintro rfl
  exact absurd (hl.symm.trans hc) (by decide)

section NormalForms

variable {body tail : List Char} {l : Char}

theorem normalizePath_unix (hbody : body.head? ≠ some '/') :
    normalizePath ('/' :: body) = '/' :: slashed body := by
  rw [normalizePath, stripVerbatim_slash hbody, slashed_cons (by decide),
    lowerDrive_of_not (startsDrive_slash _)]

theorem stripVerbatim_driveMark {d : Char} (hl : l.isAlpha = true) (hd : d ≠ 'N') (v : Option Slashes)
    (rest : List Char) : stripVerbatim (driveMark v ++ l :: d :: rest) = l :: d :: rest := by
  cases v with
  | some v => exact stripVerbatim_mark v hd l rest
  | none =>
    refine stripVerbatim_of_head fun c hc => ?_
    injection hc with hc
    exact hc ▸ ⟨ne_of_isAlpha hl (by decide), ne_of_isAlpha hl (by decide)⟩

theorem normalizePath_drive (hl : l.isAlpha = true) (v : Option Slashes)
    (h : slashed tail = l :: ':' :: body) : normalizePath (driveMark v ++ tail) = l.toLower :: ':' :: body := by
  obtain ⟨rest, rfl, hrest⟩ := slashed_eq_cons (ne_of_isAlpha hl (by decide)) h
  obtain ⟨rest, rfl, -⟩ := slashed_eq_cons (by decide) hrest
  have hdrive : startsDrive (l :: ':' :: body) = true := by
    rw [startsDrive, hl]
    rfl
  rw [normalizePath, stripVerbatim_driveMark hl (by decide), h, lowerDrive, if_pos hdrive]
  rfl

theorem normalizePath_escaped (hl : l.isAlpha = true) (v : Slashes) (h : slashed tail = l :: '%' :: body) :
    normalizePath (v.mark ++ tail) = l :: '%' :: body ∧
      normalizePath ('/' :: tail) = '/' :: l :: '%' :: body := by
  have hlslash : l ≠ '/' := ne_of_isAlpha hl (by decide)
  have hno : startsDrive (l :: '%' :: body) = false := by
    rw [startsDrive]
    exact Bool.and_false _
  obtain ⟨rest, rfl, hrest⟩ := slashed_eq_cons hlslash h
  obtain ⟨rest, rfl, -⟩ := slashed_eq_cons (by decide) hrest
  constructor
  · rw [normalizePath, stripVerbatim_mark v (by decide), h, lowerDrive_of_not hno]
  · have hbody : (l :: '%' :: rest).head? ≠ some '/' := fun hl' => hlslash (Option.some.inj hl')
    rw [normalizePath_unix hbody, h]

theorem normalizePath_uncMark (v : Slashes) (h : slashed tail = body) (hdrive : startsDrive body = false) :
    normalizePath (v.uncMark ++ tail) = body := by
  rw [normalizePath, stripVerbatim_uncMark, h, lowerDrive_of_not hdrive]

theorem normalizePath_share (h : slashed tail = '/' :: '/' :: body) (hbody : body.head? ≠ some '?') :
    normalizePath tail = '/' :: '/' :: body := by
  have hquestion (c d : Char) : ¬[c, d, '?'] <+: tail := by
    rintro ⟨rest, rfl⟩
    injection h with _ h
    injection h with _ h
    exact hbody (h ▸ rfl)
  rw [normalizePath, stripVerbatim_of_not (hquestion _ _) (hquestion _ _), h,
    lowerDrive_of_not (startsDrive_slash _)]

theorem normalizePath_authority (h : slashed tail = body) (hbody : body.head? ≠ some '/')
    (hdrive : startsDrive body = false) : normalizePath tail = body := by
  have hhead : ∀ c, tail.head? = some c → c ≠ '/' ∧ c ≠ '\\' := by
    intro c hc
    have hslash := head?_slashed tail
    rw [h, hc, Option.map_some] at hslash
    constructor
    · rintro rfl
      exact hbody hslash
    · rintro rfl
      exact hbody hslash
  rw [normalizePath, stripVerbatim_of_head hhead, h, lowerDrive_of_not hdrive]

end NormalForms

/-! ### The root -/

theorem share_head {server : List Char} {names : List (List Char)} {after : List Char}
    (hnames : Components (server :: names)) (hafter : ∀ c, after.head? = some c → c = '/') :
    ∃ rest, joinSlash (server :: names) ++ after = server ++ rest ∧ rest.head? ≠ some ':' := by
  cases names with
  | nil =>
    refine ⟨after, by rw [joinSlash, List.intercalate_singleton], fun h => ?_⟩
    exact absurd (hafter ':' h) (by decide)
  | cons d names =>
    refine ⟨'/' :: (joinSlash (d :: names) ++ after), ?_, fun h => absurd (Option.some.inj h) (by decide)⟩
    rw [joinSlash, List.intercalate_cons_of_ne_nil (List.cons_ne_nil _ _)]
    simp [joinSlash]

theorem startsDrive_server {server rest : List Char} (hne : server ≠ []) (hserver : ':' ∉ server)
    (hrest : rest.head? ≠ some ':') : startsDrive (server ++ rest) = false := by
  obtain ⟨a, more, rfl⟩ := List.exists_cons_of_ne_nil hne
  have hsecond : (more ++ rest).head? ≠ some ':' := by
    cases more with
    | nil => exact hrest
    | cons b more =>
      intro h
      injection h with h
      exact hserver (h ▸ List.mem_cons_of_mem _ List.mem_cons_self)
  rw [List.cons_append]
  cases hmore : more ++ rest with
  | nil => rfl
  | cons b more' =>
    rw [hmore] at hsecond
    have hb : (b == ':') = false := beq_eq_false_iff_ne.mpr fun h => hsecond (congrArg some h)
    rw [startsDrive, hb, Bool.and_false]

/-- The text behind the opening, and what the normal form begins with in its place. -/
def Root.body (r : Root) : List Char := if r.trailing then dirText r.comps else (dirText r.comps).dropLast

def RootForm.head : RootForm → List Char
  | .unix => ['/']
  | .drive _ letter => [letter.toLower, ':', '/']
  | .unc (some _) => []
  | .unc none => ['/', '/']

theorem Root.body_eq (r : Root) :
    ∃ after, r.body = joinSlash r.comps ++ after ∧ ∀ c, after.head? = some c → c = '/' := by
  unfold body
  by_cases hne : r.comps = []
  · rw [hne]
    exact ⟨[], by split_ifs <;> rfl, fun c hc => nomatch hc⟩
  · rw [dirText_eq hne, List.dropLast_concat]
    split_ifs
    · exact ⟨['/'], rfl, fun c hc => (Option.some.inj hc).symm⟩
    · exact ⟨[], (List.append_nil _).symm, fun c hc => nomatch hc⟩

theorem Root.body_head (r : Root) : r.body.head? ≠ some '/' := by
  unfold body
  by_cases hne : r.comps = []
  · rw [hne]
    split_ifs <;> exact fun h => nomatch h
  · have hjoin := joinSlash_ne_nil hne r.names.1
    have hhead := head?_joinSlash_ne_slash r.names.1
    rw [dirText_eq hne, List.dropLast_concat]
    split_ifs
    · rw [List.head?_append_of_ne_nil _ hjoin]
      exact hhead
    · exact hhead

theorem Root.slashed_body (r : Root) (h : r.form.anchor ≠ .unix) : slashed r.body = r.body := by
  have hspelled := r.spelled
  rw [Anchor.separators, if_neg h] at hspelled
  have hno : '\\' ∉ r.form.opening ++ r.body := by
    rw [body, ← hspelled]
    exact not_mem_slashed r.tail
  exact slashed_of_not_mem fun hmem => hno (List.mem_append_right _ hmem)

theorem Root.normalizePath_path (r : Root) : normalizePath r.path = r.form.head ++ slashed r.body := by
  have hspelled : r.form.anchor.separators r.tail = r.form.opening ++ r.body := r.spelled
  have hslashed := r.slashed_body
  have hletter := r.letter
  have hnames := r.names
  rw [path]
  cases hform : r.form with
  | unix =>
    rw [hform] at hspelled
    have htail : r.tail = '/' :: r.body := hspelled
    rw [htail]
    exact normalizePath_unix r.body_head
  | drive v l =>
    rw [hform] at hspelled hslashed
    have htail : slashed r.tail = l :: ':' :: '/' :: r.body := hspelled
    rw [hslashed (fun h => nomatch h)]
    exact normalizePath_drive (hletter v l hform) v htail
  | unc v =>
    rw [hform] at hspelled hslashed hnames
    obtain ⟨server, names, hcomps, hcolon, hquestion⟩ := hnames.2.2 rfl
    have hserver : server ≠ [] := (hnames.1 server (hcomps ▸ List.mem_cons_self)).1
    obtain ⟨after, hafter, hslash⟩ := r.body_eq
    rw [hcomps] at hafter
    obtain ⟨rest, hrest, hcolon'⟩ := share_head (hcomps ▸ hnames.1) hslash
    rw [hrest] at hafter
    rw [hslashed (fun h => nomatch h)]
    cases v with
    | some v =>
      have hdrive : startsDrive r.body = false := by
        rw [hafter]
        exact startsDrive_server hserver hcolon hcolon'
      exact normalizePath_uncMark v hspelled hdrive
    | none =>
      have hhead : r.body.head? ≠ some '?' := by
        rw [hafter, List.head?_append_of_ne_nil _ hserver]
        exact fun h => hquestion (List.mem_of_head? h)
      exact normalizePath_share hspelled hhead

theorem getLast?_joinSlash (hne : comps ≠ []) (hcomps : Components comps) :
    ∃ c, (joinSlash comps).getLast? = some c ∧ c ≠ '/' := by
  have hlast := hcomps _ (List.getLast_mem hne)
  have hjoin : joinSlash comps = dirText comps.dropLast ++ comps.getLast hne := by
    have happend := joinSlash_append (List.cons_ne_nil (comps.getLast hne) []) comps.dropLast
    rw [List.dropLast_append_getLast hne] at happend
    rw [happend, joinSlash, List.intercalate_singleton]
  refine ⟨(comps.getLast hne).getLast hlast.1, ?_, ?_⟩
  · rw [hjoin, List.getLast?_append_of_ne_nil _ hlast.1, List.getLast?_eq_getLast_of_ne_nil hlast.1]
  · intro hslash
    exact hlast.2 (hslash ▸ List.getLast_mem hlast.1)

theorem getLast?_slashed (s : List Char) :
    (slashed s).getLast? = s.getLast?.map fun c => if c = '\\' then '/' else c := List.getLast?_map

def Root.EndsInBackslash (r : Root) : Prop := r.form = .unix ∧ r.path.getLast? = some '\\'

theorem Root.body_cases (r : Root) :
    r.body = dirText r.comps ∧ (r.comps = [] ∨ r.trailing = true) ∨
      r.comps ≠ [] ∧ r.trailing = false ∧ r.body = joinSlash r.comps := by
  unfold body
  by_cases hne : r.comps = []
  · rw [hne]
    left
    exact ⟨by split_ifs <;> rfl, Or.inl rfl⟩
  · cases htrailing : r.trailing with
    | true => exact Or.inl ⟨if_pos rfl, Or.inr rfl⟩
    | false =>
      right
      rw [dirText_eq hne, List.dropLast_concat]
      exact ⟨hne, rfl, if_neg (by decide)⟩

theorem Root.head_slash (r : Root) (h : r.comps = []) : r.form.head.getLast? = some '/' := by
  cases hform : r.form with
  | unix => rfl
  | drive v l => rfl
  | unc v =>
    have hnames := r.names
    rw [hform, h] at hnames
    obtain ⟨server, rest, hcomps, -⟩ := hnames.2.2 rfl
    exact nomatch hcomps

theorem Root.base_eq (r : Root) (h : ¬r.EndsInBackslash) :
    normalizedBasePrefix r.path = r.form.head ++ slashed (dirText r.comps) := by
  have hnormal := r.normalizePath_path
  rw [normalizedBasePrefix, hnormal]
  rcases r.body_cases with ⟨hbody, hcomps⟩ | ⟨hne, -, hbody⟩
  · rw [hbody]
    have hlast : (r.form.head ++ slashed (dirText r.comps)).getLast? = some '/' := by
      by_cases hnil : r.comps = []
      · rw [hnil]
        exact (congrArg List.getLast? (List.append_nil _)).trans (r.head_slash hnil)
      · rw [dirText_eq hnil, slashed_append, ← List.append_assoc]
        exact List.getLast?_concat
    exact if_pos hlast
  · obtain ⟨c, hc, hslash⟩ := getLast?_joinSlash hne r.names.1
    have hback : c ≠ '\\' := by
      rintro rfl
      by_cases hunix : r.form = .unix
      · refine h ⟨hunix, ?_⟩
        have hspelled : r.form.anchor.separators r.tail = r.form.opening ++ r.body := r.spelled
        rw [hunix] at hspelled
        have htail : r.tail = '/' :: joinSlash r.comps := hbody ▸ hspelled
        rw [path, hunix, htail]
        have hjoin := joinSlash_ne_nil hne r.names.1
        exact (List.getLast?_append_of_ne_nil ['/'] hjoin).trans hc
      · have hanchor : r.form.anchor ≠ .unix := by
          intro hanchor
          cases hform : r.form <;> rw [hform] at hanchor hunix
          · exact hunix rfl
          · exact nomatch hanchor
          · exact nomatch hanchor
        have hno := not_mem_slashed r.body
        rw [r.slashed_body hanchor, hbody] at hno
        exact hno (List.mem_of_getLast? hc)
    have hlast : (r.form.head ++ slashed r.body).getLast? ≠ some '/' := by
      have hslashed : (slashed r.body).getLast? = some c := by
        rw [getLast?_slashed, hbody, hc, Option.map_some, if_neg hback]
      have hne' : slashed r.body ≠ [] := by
        intro hnil
        rw [hnil] at hslashed
        exact nomatch hslashed
      rw [List.getLast?_append_of_ne_nil _ hne', hslashed]
      exact fun h => hslash (Option.some.inj h)
    have hdir : slashed (dirText r.comps) = slashed r.body ++ ['/'] := by
      rw [dirText_eq hne, hbody, slashed_append]
      rfl
    rw [hdir, ← List.append_assoc]
    exact if_neg hlast

theorem Root.base_of_backslash (r : Root) (h : r.EndsInBackslash) :
    normalizedBasePrefix r.path = '/' :: slashed (joinSlash r.comps) ∧ r.comps ≠ [] := by
  obtain ⟨hunix, hback⟩ := h
  have hspelled : r.form.anchor.separators r.tail = r.form.opening ++ r.body := r.spelled
  rw [hunix] at hspelled
  have htail : r.tail = '/' :: r.body := hspelled
  rw [path, hunix, htail] at hback
  have hback' : ('/' :: r.body).getLast? = some '\\' := hback
  rcases r.body_cases with ⟨hbody, hcomps⟩ | ⟨hne, -, hbody⟩
  · exfalso
    by_cases hnil : r.comps = []
    · rw [hbody, hnil] at hback'
      exact absurd (Option.some.inj hback') (by decide)
    · rw [hbody, dirText_eq hnil, ← List.cons_append, List.getLast?_concat] at hback'
      exact absurd (Option.some.inj hback') (by decide)
  · have hnormal := r.normalizePath_path
    have hbody' : r.body ≠ [] := hbody ▸ joinSlash_ne_nil hne r.names.1
    have hlast : (r.form.head ++ slashed r.body).getLast? = some '/' := by
      have hslashed : (slashed r.body).getLast? = some '/' := by
        have hcons : ('/' :: r.body).getLast? = r.body.getLast? := List.getLast?_append_of_ne_nil ['/'] hbody'
        rw [getLast?_slashed, ← hcons, hback']
        rfl
      have hne' : slashed r.body ≠ [] := by
        intro hnil
        rw [hnil] at hslashed
        exact nomatch hslashed
      rw [List.getLast?_append_of_ne_nil _ hne', hslashed]
    refine ⟨?_, hne⟩
    rw [normalizedBasePrefix, hnormal]
    refine (if_pos hlast).trans ?_
    rw [hunix, hbody]
    rfl

/-! ### The URI -/

theorem escaped_colon {colon : List Char} (h : Escapes colon [':']) :
    colon = [':'] ∨ ∃ rest, colon = '%' :: rest := by
  cases h with
  | char _ hrest =>
    cases hrest
    exact Or.inl rfl
  | escaped bytes hbytes hrest =>
    cases bytes with
    | nil => exact absurd hbytes.symm (List.ne_nil_of_length_pos (by rw [String.length_utf8EncodeChar]; exact Char.utf8Size_pos _))
    | cons b bytes => exact Or.inr ⟨_, rfl⟩

/-- What the normal form of a URI's path begins with; an escaped colon is kept. -/
def UriForm.head : UriForm → List Char
  | .unix => ['/']
  | .drive v letter colon =>
    if colon = [':'] then [letter.toLower, ':', '/']
    else (if v = none then ['/'] else []) ++ letter :: colon ++ ['/']
  | .unc (some _) _ => []
  | .unc none authority => if authority then [] else ['/', '/']

theorem Uri.encs_components (u : Uri) : Components u.encs := u.names.1.escaped u.escapes

theorem stripPrefix_append (pat : String) (s : List Char) : stripPrefix pat (pat.toList ++ s) = some s := by
  rw [stripPrefix, if_pos (List.isPrefixOf_iff_prefix.mpr ⟨s, rfl⟩), List.drop_left]

theorem strip_scheme (u : Uri) : stripPrefix "file://" u.uri = some (u.form.lead ++ u.tail) :=
  stripPrefix_append "file://" (u.form.lead ++ u.tail)

theorem fileUriToPath_drive (u : Uri) (h : u.form.lead ++ u.tail = '/' :: s) (hs : startsDrive s = true) :
    fileUriToPath u.uri = s := by
  rw [fileUriToPath, strip_scheme, Option.getD_some, h]
  exact if_pos ⟨rfl, hs⟩

theorem fileUriToPath_keep (u : Uri)
    (h : ∀ s, u.form.lead ++ u.tail = '/' :: s → startsDrive s = false) :
    fileUriToPath u.uri = u.form.lead ++ u.tail := by
  rw [fileUriToPath, strip_scheme, Option.getD_some]
  refine if_neg ?_
  rintro ⟨hhead, hdrive⟩
  obtain ⟨s, hs⟩ := List.head?_eq_some_iff.mp hhead
  rw [hs, List.tail_cons, h s hs] at hdrive
  exact absurd hdrive (by decide)

theorem Uri.normal_unix (u : Uri) (h : u.form = .unix) :
    normalizePath (fileUriToPath u.uri) =
      if startsDrive (joinSlash u.encs) then lowerFirst (slashed (joinSlash u.encs))
      else '/' :: slashed (joinSlash u.encs) := by
  have hspelled := u.spelled
  rw [h] at hspelled
  have htail : u.form.lead ++ u.tail = '/' :: joinSlash u.encs := by
    rw [h]
    exact hspelled
  split_ifs with hdrive
  · rw [fileUriToPath_drive u htail hdrive]
    cases hjoin : joinSlash u.encs with
    | nil =>
      rw [hjoin] at hdrive
      exact nomatch hdrive
    | cons c rest =>
      cases rest with
      | nil =>
        rw [hjoin] at hdrive
        exact nomatch hdrive
      | cons d rest =>
        rw [hjoin, startsDrive, Bool.and_eq_true, beq_iff_eq] at hdrive
        obtain ⟨hc, rfl⟩ := hdrive
        have hslashed : slashed (c :: ':' :: rest) = c :: ':' :: slashed rest := by
          rw [slashed_cons (ne_of_isAlpha hc (by decide)), slashed_cons (by decide)]
        rw [hslashed]
        exact normalizePath_drive hc none hslashed
  · have hkeep : ∀ s, u.form.lead ++ u.tail = '/' :: s → startsDrive s = false := by
      intro s hs
      injection htail.symm.trans hs with _ hs
      exact hs ▸ Bool.eq_false_iff.mpr hdrive
    rw [fileUriToPath_keep u hkeep, htail]
    exact normalizePath_unix (head?_joinSlash_ne_slash u.encs_components)

theorem startsDrive_mark (v : Slashes) (tail : List Char) :
    ∀ s, v.mark ++ tail = '/' :: s → startsDrive s = false := by
  intro s hs
  cases v with
  | back => exact absurd (List.cons.inj hs).1 (by decide)
  | forward =>
    rw [← (List.cons.inj hs).2]
    rfl

theorem Uri.normal_drive (u : Uri) {v : Option Slashes} {l : Char} {colon : List Char}
    (h : u.form = .drive v l colon) :
    normalizePath (fileUriToPath u.uri) = u.form.head ++ joinSlash u.encs := by
  obtain ⟨hl, hcolon⟩ := u.letter v l colon h
  have hspelled := u.spelled
  rw [h] at hspelled
  have htail : slashed u.tail = l :: (colon ++ ['/'] ++ joinSlash u.encs) := hspelled
  obtain ⟨rest, hrest, hrest'⟩ := slashed_eq_cons (ne_of_isAlpha hl (by decide)) htail
  rcases escaped_colon hcolon with rfl | ⟨more, rfl⟩
  · obtain ⟨rest', rfl, -⟩ := slashed_eq_cons (by decide) hrest'
    have hdrive : startsDrive u.tail = true := by
      rw [hrest, startsDrive, hl]
      rfl
    have hhead : u.form.head = [l.toLower, ':', '/'] := by
      rw [h, UriForm.head, if_pos rfl]
    rw [hhead]
    cases v with
    | none =>
      have hlead : u.form.lead ++ u.tail = '/' :: u.tail := by
        rw [h]
        rfl
      rw [fileUriToPath_drive u hlead hdrive]
      exact normalizePath_drive hl none htail
    | some v =>
      have hlead : u.form.lead = v.mark := by
        rw [h]
        rfl
      rw [fileUriToPath_keep u (hlead ▸ startsDrive_mark v u.tail), hlead]
      exact normalizePath_drive hl (some v) htail
  · obtain ⟨rest', rfl, -⟩ := slashed_eq_cons (by decide) hrest'
    have hdrive : startsDrive u.tail = false := by
      rw [hrest, startsDrive]
      exact Bool.and_false _
    have hhead : u.form.head = (if v = none then ['/'] else []) ++ l :: ('%' :: more) ++ ['/'] := by
      have hne : ¬ '%' :: more = [':'] := fun heq => absurd (List.cons.inj heq).1 (by decide)
      rw [h, UriForm.head, if_neg hne]
    rw [hhead]
    cases v with
    | none =>
      have hlead : u.form.lead ++ u.tail = '/' :: u.tail := by
        rw [h]
        rfl
      have hkeep : ∀ s, u.form.lead ++ u.tail = '/' :: s → startsDrive s = false := by
        intro s hs
        injection hlead.symm.trans hs with _ hs
        exact hs ▸ hdrive
      rw [fileUriToPath_keep u hkeep, hlead]
      exact (normalizePath_escaped hl .back htail).2
    | some v =>
      have hlead : u.form.lead = v.mark := by
        rw [h]
        rfl
      rw [fileUriToPath_keep u (hlead ▸ startsDrive_mark v u.tail), hlead]
      exact (normalizePath_escaped hl v htail).1

theorem forall₂_cons_right {comp : List Char} (h : List.Forall₂ Escapes encs (comp :: comps)) :
    ∃ enc rest, encs = enc :: rest ∧ Escapes enc comp := by
  cases h with
  | cons hone _ => exact ⟨_, _, rfl, hone⟩

theorem Uri.normal_unc (u : Uri) {v : Option Slashes} {authority : Bool} (h : u.form = .unc v authority) :
    normalizePath (fileUriToPath u.uri) = u.form.head ++ joinSlash u.encs := by
  have hspelled := u.spelled
  have hnames := u.names
  have hescapes := u.escapes
  rw [h] at hspelled hnames
  obtain ⟨server, names, hcomps, hcolon, hquestion⟩ := hnames.2.2 rfl
  rw [hcomps] at hescapes
  obtain ⟨enc, encs, hencs, hserver⟩ := forall₂_cons_right hescapes
  have hcomponents : Components (enc :: encs) := hencs ▸ u.encs_components
  have hne := (hcomponents enc List.mem_cons_self).1
  have hclean {c : Char} (hc : c ∉ server) (hno : ¬Escaping c) : c ∉ enc := fun hmem =>
    (hserver.mem hmem).elim hc hno
  obtain ⟨rest, hrest, hrest'⟩ := @share_head enc encs [] hcomponents fun c hc => nomatch hc
  rw [List.append_nil, ← hencs] at hrest
  have hdrive : startsDrive (joinSlash u.encs) = false := by
    rw [hrest]
    refine startsDrive_server hne (hclean hcolon ?_) hrest'
    exact fun hno => hno (by decide)
  have hslash := head?_joinSlash_ne_slash u.encs_components
  cases v with
  | some v =>
    have htail : slashed u.tail = joinSlash u.encs := hspelled
    have hlead : u.form.lead = v.uncMark := by
      rw [h]
      rfl
    have hkeep : ∀ s, u.form.lead ++ u.tail = '/' :: s → startsDrive s = false := by
      intro s hs
      rw [hlead] at hs
      cases v with
      | back => exact absurd (List.cons.inj hs).1 (by decide)
      | forward =>
        rw [← (List.cons.inj hs).2]
        rfl
    rw [fileUriToPath_keep u hkeep, hlead, h]
    exact normalizePath_uncMark v htail hdrive
  | none =>
    have hlead : u.form.lead ++ u.tail = u.tail := by
      rw [h]
      rfl
    cases authority with
    | true =>
      have htail : slashed u.tail = joinSlash u.encs := hspelled
      have hkeep : ∀ s, u.form.lead ++ u.tail = '/' :: s → startsDrive s = false := by
        intro s hs
        rw [hlead] at hs
        rw [hs] at htail
        exact absurd (htail ▸ rfl) hslash
      rw [fileUriToPath_keep u hkeep, hlead, h]
      exact normalizePath_authority htail hslash hdrive
    | false =>
      have htail : slashed u.tail = '/' :: '/' :: joinSlash u.encs := hspelled
      have hkeep : ∀ s, u.form.lead ++ u.tail = '/' :: s → startsDrive s = false := by
        intro s hs
        rw [hlead] at hs
        rw [hs] at htail
        cases s with
        | nil => rfl
        | cons c s =>
          have hc : (if c = '\\' then '/' else c) = '/' := (List.cons.inj (List.cons.inj htail).2).1
          have halpha : c.isAlpha = false := by
            split_ifs at hc with hback
            · rw [hback]
              rfl
            · rw [hc]
              rfl
          cases s with
          | nil => rfl
          | cons d s => rw [startsDrive, halpha, Bool.false_and]
      have hhead : (joinSlash u.encs).head? ≠ some '?' := by
        rw [hrest, List.head?_append_of_ne_nil _ hne]
        intro hmem
        exact hclean hquestion (fun hno => hno (by decide)) (List.mem_of_head? hmem)
      rw [fileUriToPath_keep u hkeep, hlead, h]
      exact normalizePath_share htail hhead

/-! ### Relative paths -/

theorem relativeToBase_eq_iff {base path rho : List Char} :
    relativeToBase base path = rho ↔ normalizePath path = base ++ rho ∨
      ¬base <+: normalizePath path ∧ normalizePath path = rho := by
  rw [relativeToBase]
  by_cases hpre : base <+: normalizePath path
  · obtain ⟨rest, hrest⟩ := hpre
    rw [← hrest, strip_append, Option.getD_some, List.append_cancel_left_eq]
    constructor
    · exact Or.inl
    · rintro (h | ⟨h, -⟩)
      · exact h
      · exact absurd ⟨rest, rfl⟩ h
  · rw [strip_eq_none hpre, Option.getD_none]
    constructor
    · exact fun h => Or.inr ⟨hpre, h⟩
    · rintro (h | ⟨-, h⟩)
      · exact absurd ⟨rho, h.symm⟩ hpre
      · exact h

theorem under_length {root : Root} {u : Uri} (h : Under root u rel) :
    joinSlash u.comps = dirText root.comps ++ joinSlash rel ∧
      (u.encs = u.comps ∨ (joinSlash u.comps).length < (joinSlash u.encs).length) :=
  ⟨h.2.2 ▸ joinSlash_append h.1 root.comps, joinSlash_eq_or_longer u.escapes⟩

theorem Under.components {root : Root} {u : Uri} (h : Under root u rel) : Components rel := fun c hc =>
  u.names.1 c (h.2.2 ▸ List.mem_append_right _ hc)

theorem under_longer {root : Root} {u : Uri} (h : Under root u rel) {head : List Char}
    (hlong : head ≠ [] ∨ root.comps ≠ []) : head ++ joinSlash u.encs ≠ joinSlash rel := by
  obtain ⟨hjoin, hlen⟩ := under_length h
  intro heq
  have hlength := congrArg List.length heq
  have hsum := congrArg List.length hjoin
  rw [List.length_append] at hlength hsum
  have hle : (joinSlash u.comps).length ≤ (joinSlash u.encs).length := by
    rcases hlen with hsame | hlt
    · rw [hsame]
    · exact hlt.le
  rcases hlong with hne | hne
  · have hpos := List.length_pos_of_ne_nil hne
    omega
  · have hpos : 0 < (dirText root.comps).length := by
      rw [dirText_eq hne, List.length_append]
      exact Nat.succ_pos _
    omega

theorem found_of_heads {root : Root} {u : Uri} (h : Under root u rel) {head : List Char}
    (hbase : normalizedBasePrefix root.path = head ++ dirText root.comps)
    (hnormal : normalizePath (fileUriToPath u.uri) = head ++ joinSlash u.encs)
    (hlong : head ≠ [] ∨ root.comps ≠ []) :
    relativeToBase (normalizedBasePrefix root.path) (fileUriToPath u.uri) = joinSlash rel ↔
      u.encs = u.comps := by
  obtain ⟨hjoin, hlen⟩ := under_length h
  rw [relativeToBase_eq_iff, hbase, hnormal]
  constructor
  · rintro (heq | ⟨-, heq⟩)
    · rw [List.append_assoc, List.append_cancel_left_eq, ← hjoin] at heq
      rcases hlen with hsame | hlt
      · exact hsame
      · rw [heq] at hlt
        exact absurd hlt (lt_irrefl _)
    · exact absurd heq (under_longer h hlong)
  · intro hsame
    left
    rw [hsame, hjoin, List.append_assoc]

theorem not_found_of_heads {root : Root} {u : Uri} (h : Under root u rel) {base head : List Char}
    (hnormal : normalizePath (fileUriToPath u.uri) = head ++ joinSlash u.encs)
    (hapart : ∀ rho, head ++ joinSlash u.encs ≠ base ++ rho) (hlong : head ≠ [] ∨ root.comps ≠ []) :
    relativeToBase base (fileUriToPath u.uri) ≠ joinSlash rel := by
  rw [Ne, relativeToBase_eq_iff, hnormal]
  rintro (heq | ⟨-, heq⟩)
  · exact hapart _ heq
  · exact under_longer h hlong heq

theorem Root.base_windows (root : Root) (h : root.form ≠ .unix) :
    normalizedBasePrefix root.path = root.form.head ++ dirText root.comps := by
  have hanchor : root.form.anchor ≠ .unix := by
    cases hform : root.form with
    | unix => exact absurd hform h
    | drive v l => exact fun h => nomatch h
    | unc v => exact fun h => nomatch h
  have hno : '\\' ∉ dirText root.comps := by
    intro hmem
    obtain ⟨c, hc, hmem⟩ := List.mem_flatMap.mp hmem
    rcases List.mem_append.mp hmem with hmem | hmem
    · exact root.names.2.1 hanchor c hc hmem
    · exact absurd (List.mem_singleton.mp hmem) (by decide)
  rw [root.base_eq fun hback => h hback.1, slashed_of_not_mem hno]

theorem found_drive {root : Root} {u : Uri} (h : Under root u rel) {v : Option Slashes} {l : Char}
    {colon : List Char} (hform : u.form = .drive v l colon) :
    relativeToBase (normalizedBasePrefix root.path) (fileUriToPath u.uri) = joinSlash rel ↔
      u.encs = u.comps ∧ colon = [':'] := by
  have hanchor := h.2.1
  obtain ⟨hl, hcolon⟩ := u.letter v l colon hform
  obtain ⟨v', l', hroot, hletter⟩ : ∃ v' l', root.form = .drive v' l' ∧ l'.toLower = l.toLower := by
    rw [hform] at hanchor
    cases hroot : root.form with
    | unix => rw [hroot] at hanchor; exact nomatch hanchor
    | drive v' l' =>
      rw [hroot] at hanchor
      exact ⟨v', l', rfl, (Anchor.drive.inj hanchor).symm⟩
    | unc v' => rw [hroot] at hanchor; exact nomatch hanchor
  have hbase : normalizedBasePrefix root.path = [l.toLower, ':', '/'] ++ dirText root.comps := by
    rw [root.base_windows (by rw [hroot]; exact fun h => nomatch h), hroot, RootForm.head, hletter]
  have hnormal := u.normal_drive hform
  rw [hform, UriForm.head] at hnormal
  by_cases hplain : colon = [':']
  · rw [if_pos hplain] at hnormal
    rw [and_iff_left hplain]
    exact found_of_heads h hbase hnormal (Or.inl (List.cons_ne_nil _ _))
  · rw [if_neg hplain] at hnormal
    obtain ⟨more, rfl⟩ := (escaped_colon hcolon).resolve_left hplain
    refine iff_of_false (not_found_of_heads h hnormal ?_ (Or.inl ?_)) fun h => hplain h.2
    · rw [hbase]
      intro rho heq
      have halnum : l.toLower.isAlphanum = true :=
        isAlphanum_toLower (Bool.or_eq_true _ _ ▸ Or.inl hl)
      have hslash : l.toLower ≠ '/' := by
        intro heq
        rw [heq] at halnum
        exact absurd halnum (by decide)
      split_ifs at heq
      · exact hslash (List.cons.inj heq).1.symm
      · exact absurd (List.cons.inj (List.cons.inj heq).2).1 (by decide)
    · split_ifs <;> exact List.cons_ne_nil _ _

def shareHead (slashes : Bool) : List Char := if slashes then ['/', '/'] else []

theorem found_share {root : Root} {u : Uri} (h : Under root u rel) (hne : root.comps ≠ []) {b b' : Bool}
    (hbase : normalizedBasePrefix root.path = shareHead b ++ dirText root.comps)
    (hnormal : normalizePath (fileUriToPath u.uri) = shareHead b' ++ joinSlash u.encs) :
    relativeToBase (normalizedBasePrefix root.path) (fileUriToPath u.uri) = joinSlash rel ↔
      u.encs = u.comps ∧ b' = b := by
  by_cases hsame : b' = b
  · rw [hsame] at hnormal
    rw [and_iff_left hsame]
    exact found_of_heads h hbase hnormal (Or.inr hne)
  · refine iff_of_false (not_found_of_heads h hnormal ?_ (Or.inr hne)) fun h => hsame h.2
    have hencs := head?_joinSlash_ne_slash u.encs_components
    have hdir : (dirText root.comps).head? ≠ some '/' := by
      rw [dirText_eq hne, List.head?_append_of_ne_nil _ (joinSlash_ne_nil hne root.names.1)]
      exact head?_joinSlash_ne_slash root.names.1
    rw [hbase]
    intro rho heq
    have hheads := congrArg List.head? heq
    cases b with
    | true =>
      cases b' with
      | true => exact hsame rfl
      | false => exact hencs hheads
    | false =>
      cases b' with
      | true =>
        have hdir' : dirText root.comps ≠ [] := by
          rw [dirText_eq hne]
          exact List.append_ne_nil_of_right_ne_nil _ (List.cons_ne_nil _ _)
        have hright : (dirText root.comps ++ rho).head? = some '/' := hheads.symm
        rw [List.head?_append_of_ne_nil _ hdir'] at hright
        exact hdir hright
      | false => exact hsame rfl

theorem found_unc {root : Root} {u : Uri} (h : Under root u rel) {v : Option Slashes} {authority : Bool}
    (hform : u.form = .unc v authority) :
    relativeToBase (normalizedBasePrefix root.path) (fileUriToPath u.uri) = joinSlash rel ↔
      u.encs = u.comps ∧ ((v = none ∧ authority = false) ↔ root.form = .unc none) := by
  have hanchor := h.2.1
  obtain ⟨v', hroot⟩ : ∃ v', root.form = .unc v' := by
    rw [hform] at hanchor
    cases hroot : root.form with
    | unix => rw [hroot] at hanchor; exact nomatch hanchor
    | drive v' l' => rw [hroot] at hanchor; exact nomatch hanchor
    | unc v' => exact ⟨v', rfl⟩
  have hnames := root.names
  rw [hroot] at hnames
  obtain ⟨server, rest, hcomps, -⟩ := hnames.2.2 rfl
  have hne : root.comps ≠ [] := by
    rw [hcomps]
    exact List.cons_ne_nil _ _
  have hbase := root.base_windows (by rw [hroot]; exact fun h => nomatch h)
  have hnormal := u.normal_unc hform
  have hroothead : root.form.head = shareHead v'.isNone := by
    rw [hroot]
    cases v' <;> rfl
  have hurihead : u.form.head = shareHead (v.isNone && !authority) := by
    rw [hform]
    cases v with
    | none => cases authority <;> rfl
    | some v => rfl
  rw [hroothead] at hbase
  rw [hurihead] at hnormal
  rw [found_share h hne hbase hnormal, hroot]
  refine and_congr_right fun _ => ?_
  cases v <;> cases v' <;> cases authority <;> simp

theorem Root.base_unix (root : Root) (h : root.form = .unix) :
    ∃ dir, normalizedBasePrefix root.path = '/' :: slashed dir ∧
      (root.path.getLast? ≠ some '\\' ∧ dir = dirText root.comps ∨
        root.path.getLast? = some '\\' ∧ dir.length + 1 = (dirText root.comps).length) := by
  by_cases hback : root.path.getLast? = some '\\'
  · obtain ⟨hbase, hne⟩ := root.base_of_backslash ⟨h, hback⟩
    refine ⟨joinSlash root.comps, hbase, Or.inr ⟨hback, ?_⟩⟩
    rw [dirText_eq hne, List.length_append]
    rfl
  · have hbase := root.base_eq fun hends => hback hends.2
    rw [h] at hbase
    exact ⟨dirText root.comps, hbase, Or.inl ⟨hback, rfl⟩⟩

theorem found_plain_unix {root : Root} {u : Uri} (h : Under root u rel) (hroot : root.form = .unix)
    (hnormal : normalizePath (fileUriToPath u.uri) = '/' :: slashed (joinSlash u.encs)) :
    relativeToBase (normalizedBasePrefix root.path) (fileUriToPath u.uri) = joinSlash rel ↔
      u.encs = u.comps ∧ '\\' ∉ joinSlash rel ∧ root.path.getLast? ≠ some '\\' := by
  obtain ⟨hjoin, hlen⟩ := under_length h
  obtain ⟨dir, hbase, hdir⟩ := root.base_unix hroot
  have hrho := head?_joinSlash_ne_slash h.components
  have hsum := congrArg List.length hjoin
  rw [List.length_append] at hsum
  rw [relativeToBase_eq_iff, hbase, hnormal]
  constructor
  · rintro (heq | ⟨-, heq⟩)
    · have htext : slashed (joinSlash u.encs) = slashed dir ++ joinSlash rel := (List.cons.inj heq).2
      have hlength := congrArg List.length htext
      rw [List.length_append, length_slashed, length_slashed] at hlength
      have hsame : u.encs = u.comps := by
        rcases hlen with hsame | hlt
        · exact hsame
        · rcases hdir with ⟨-, rfl⟩ | ⟨-, hdir⟩ <;> omega
      rw [hsame] at hlength htext
      rcases hdir with ⟨hback, rfl⟩ | ⟨-, hdir⟩
      · rw [hjoin, slashed_append, List.append_cancel_left_eq] at htext
        exact ⟨hsame, slashed_eq_iff.mp htext, hback⟩
      · omega
    · exact absurd (heq ▸ rfl) hrho
  · rintro ⟨hsame, hno, hback⟩
    rcases hdir with ⟨-, rfl⟩ | ⟨hback', -⟩
    · left
      rw [hsame, hjoin, slashed_append, slashed_of_not_mem hno]
      rfl
    · exact absurd hback' hback

theorem found_driven_unix {root : Root} {u : Uri} (h : Under root u rel) (hroot : root.form = .unix)
    (hdrive : startsDrive (joinSlash u.encs) = true)
    (hnormal : normalizePath (fileUriToPath u.uri) = lowerFirst (slashed (joinSlash u.encs))) :
    relativeToBase (normalizedBasePrefix root.path) (fileUriToPath u.uri) = joinSlash rel ↔
      u.encs = u.comps ∧ root.comps = [] ∧ lowerFirst (joinSlash rel) = joinSlash rel ∧
        '\\' ∉ joinSlash rel := by
  obtain ⟨hjoin, hlen⟩ := under_length h
  obtain ⟨dir, hbase, -⟩ := root.base_unix hroot
  have hsum := congrArg List.length hjoin
  rw [List.length_append] at hsum
  obtain ⟨c, rest, hencs, halpha⟩ : ∃ c rest, joinSlash u.encs = c :: rest ∧ c.isAlpha = true := by
    cases hencs : joinSlash u.encs with
    | nil => rw [hencs] at hdrive; exact nomatch hdrive
    | cons c rest =>
      rw [hencs] at hdrive
      cases rest with
      | nil => exact nomatch hdrive
      | cons d rest => exact ⟨c, d :: rest, rfl, (Bool.and_eq_true _ _ ▸ hdrive).1⟩
  have hslashed : slashed (joinSlash u.encs) = c :: slashed rest := by
    rw [hencs, slashed_cons (ne_of_isAlpha halpha (by decide))]
  have hlower : c.toLower.isAlphanum = true := isAlphanum_toLower (Bool.or_eq_true _ _ ▸ Or.inl halpha)
  have hno (d : Char) (hd : d.isAlphanum = false) : c.toLower ≠ d := by
    rintro rfl
    exact absurd (hlower.symm.trans hd) (by decide)
  rw [relativeToBase_eq_iff, hbase, hnormal, hslashed]
  constructor
  · rintro (heq | ⟨-, heq⟩)
    · exact absurd (List.cons.inj heq).1 (hno '/' (by decide))
    · have hlength := congrArg List.length heq
      have hlen' : (lowerFirst (c :: slashed rest)).length = (joinSlash u.encs).length := by
        rw [← length_slashed (joinSlash u.encs), hslashed]
        rfl
      rw [hlen'] at hlength
      have hsame : u.encs = u.comps := by
        rcases hlen with hsame | hlt
        · exact hsame
        · omega
      rw [hsame] at hlength
      have hnil : root.comps = [] := by
        by_contra hne
        have hpos : 0 < (dirText root.comps).length := by
          rw [dirText_eq hne, List.length_append]
          exact Nat.succ_pos _
        omega
      have hrel : joinSlash rel = c :: rest := by
        rw [← hencs, hsame, hjoin, hnil]
        rfl
      have hback : '\\' ∉ joinSlash rel := by
        rw [← heq]
        intro hmem
        rcases List.mem_cons.mp hmem with hc | hc
        · exact hno '\\' (by decide) hc.symm
        · exact not_mem_slashed rest hc
      refine ⟨hsame, hnil, ?_, hback⟩
      rw [hrel] at heq ⊢
      exact congrArg (· :: rest) (List.cons.inj heq).1
  · rintro ⟨hsame, hnil, hfirst, hback⟩
    have hrel : joinSlash rel = c :: rest := by
      rw [← hencs, hsame, hjoin, hnil]
      rfl
    rw [hrel] at hfirst hback
    right
    rw [hrel, slashed_of_not_mem fun hc => hback (List.mem_cons_of_mem _ hc)]
    refine ⟨?_, hfirst⟩
    rintro ⟨more, hmore⟩
    exact hno '/' (by decide) (List.cons.inj hmore).1.symm

theorem found_unix {root : Root} {u : Uri} (h : Under root u rel) (hform : u.form = .unix) :
    relativeToBase (normalizedBasePrefix root.path) (fileUriToPath u.uri) = joinSlash rel ↔
      u.encs = u.comps ∧
        if startsDrive (joinSlash u.comps) then
          root.comps = [] ∧ lowerFirst (joinSlash rel) = joinSlash rel ∧ '\\' ∉ joinSlash rel
        else '\\' ∉ joinSlash rel ∧ root.path.getLast? ≠ some '\\' := by
  have hroot : root.form = .unix := by
    have hanchor := h.2.1
    rw [hform] at hanchor
    cases hroot : root.form with
    | unix => rfl
    | drive v l => rw [hroot] at hanchor; exact nomatch hanchor
    | unc v => rw [hroot] at hanchor; exact nomatch hanchor
  have hnormal := u.normal_unix hform
  by_cases hdrive : startsDrive (joinSlash u.encs) = true
  · rw [if_pos hdrive] at hnormal
    rw [found_driven_unix h hroot hdrive hnormal]
    refine and_congr_right fun hsame => ?_
    rw [← hsame, if_pos hdrive]
  · rw [if_neg hdrive] at hnormal
    rw [found_plain_unix h hroot hnormal]
    refine and_congr_right fun hsame => ?_
    rw [← hsame, if_neg hdrive]

theorem found_iff {root : Root} {u : Uri} (h : Under root u rel) :
    relativeToBase (normalizedBasePrefix root.path) (fileUriToPath u.uri) = joinSlash rel ↔
      Found root u rel := by
  unfold Found
  cases hform : u.form with
  | unix => exact found_unix h hform
  | drive v l colon => exact found_drive h hform
  | unc v authority => exact found_unc h hform

end Travsr.Indexer.Lsif
