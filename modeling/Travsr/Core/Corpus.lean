import Mathlib.Data.List.DropRight
import Mathlib.Data.List.Infix
import Travsr.Core.Text
import Travsr.Lib.Scan

open Travsr.Core.Text Scan

namespace Travsr.Core.Corpus

/-- What the string methods read of the Unicode tables. -/
structure UnicodeTables where
  toLower : Char → List Char
  isFinalSigma : List Char → List Char → Bool
  isAlphanumeric : Char → Bool

variable (u : UnicodeTables)

def toLowercaseFrom (before : List Char) : List Char → List Char
  | [] => []
  | c :: after =>
    (if c = 'Σ' then [if u.isFinalSigma before after then 'ς' else 'σ'] else u.toLower c) ++
      toLowercaseFrom (before ++ [c]) after

/-- `str::to_lowercase`: character by character, but for a capital sigma, which looks around. -/
def toLowercase (s : List Char) : List Char := toLowercaseFrom u [] s

def stripPrefix (pat s : List Char) : Option (List Char) :=
  if pat.isPrefixOf s then some (s.drop pat.length) else none

/-- `str::trim_end_matches`, one match after the other. -/
def trimEndMatches (pat : List Char) : Nat → List Char → List Char
  | 0, s => s
  | fuel + 1, s =>
    if pat.isSuffixOf s then trimEndMatches pat fuel (s.take (s.length - pat.length)) else s

def dotGit : List Char := ['.', 'g', 'i', 't']

def normalizePath (path : List Char) : List Char :=
  let lower := (toLowercase u path).rdropWhile (· == '/')
  trimEndMatches dotGit lower.length lower

def sanitizeLocal (s : List Char) : List Char :=
  toLowercase u (s.map fun c => if u.isAlphanumeric c || c == '-' || c == '_' then c else '-')

def canonicalCorpus (remoteUrl : List Char) : List Char :=
  let s := trimChars remoteUrl
  match (stripPrefix ['g', 'i', 't', '@'] s).bind (splitOnce [':']) with
  | some (host, path) => toLowercase u host ++ '/' :: normalizePath u path
  | none =>
    let afterScheme := ((splitOnce [':', '/', '/'] s).map Prod.snd).getD s
    let afterAt := ((splitOnce ['@'] afterScheme).map Prod.snd).getD afterScheme
    match splitOnce ['/'] afterAt with
    | some (hostPort, path) =>
      let host := (splitOn (· == ':') hostPort).headD hostPort
      toLowercase u host ++ '/' :: normalizePath u path
    | none => ['l', 'o', 'c', 'a', 'l', '/'] ++ sanitizeLocal u s

/-- How a remote is spelled, apart from what follows its path. -/
inductive Spelling where
  | url (scheme : List Char) (userinfo port : Option (List Char))
  | scp (user : List Char)

/-- A remote: a repository under one of its spellings. -/
structure Remote where
  spelling : Spelling
  host : List Char
  path : List Char
  suffix : Bool
  slash : Bool

def Remote.tail (r : Remote) : List Char :=
  r.path ++ ((if r.suffix then dotGit else []) ++ if r.slash then ['/'] else [])

def Remote.text (r : Remote) : List Char :=
  match r.spelling with
  | .url scheme userinfo port =>
    scheme ++ [':', '/', '/'] ++ ((userinfo.map fun i => i ++ ['@']).getD [] ++
      (r.host ++ (port.map fun p => ':' :: p).getD [] ++ '/' :: r.tail))
  | .scp user => user ++ '@' :: (r.host ++ ':' :: r.tail)

/-- A scheme and a user name are words, and the user info ends at its `@`. -/
def Spelling.WellFormed : Spelling → Prop
  | .url scheme userinfo port =>
    scheme ≠ [] ∧ scheme.all (fun c => c != ':' && c != '@' && !isWhitespace c) ∧
      (userinfo.getD []).all (fun c => c != '@' && c != '/') ∧ (port.getD []).all Char.isDigit
  | .scp user => user ≠ [] ∧ user.all fun c => c != '@' && c != ':' && c != '/' && !isWhitespace c

instance (s : Spelling) : Decidable s.WellFormed :=
  match s with
  | .url _ _ _ => inferInstanceAs (Decidable (_ ∧ _ ∧ _ ∧ _))
  | .scp _ => inferInstanceAs (Decidable (_ ∧ _))

/-- The parts are what a remote URL allows there. -/
structure Remote.WellFormed (r : Remote) : Prop where
  host : r.host.all fun c => c != '/' && c != '@'
  path : r.path ≠ []
  last : r.path.getLast?.all fun c => c != '/' && !isWhitespace c
  spelling : r.spelling.WellFormed

instance (r : Remote) : Decidable r.WellFormed :=
  decidable_of_iff ((r.host.all fun c => c != '/' && c != '@') ∧ r.path ≠ [] ∧
      (r.path.getLast?.all fun c => c != '/' && !isWhitespace c) ∧ r.spelling.WellFormed)
    ⟨fun h => ⟨h.1, h.2.1, h.2.2.1, h.2.2.2⟩, fun h => ⟨h.host, h.path, h.last, h.spelling⟩⟩

theorem Remote.WellFormed.not_mem_host {r : Remote} (hr : r.WellFormed) :
    '/' ∉ r.host ∧ '@' ∉ r.host := by
  have h := List.all_eq_true.mp hr.host
  constructor <;> (intro hc; have := h _ hc; revert this; decide)

theorem Remote.WellFormed.last_spec {r : Remote} (hr : r.WellFormed) :
    ∀ c ∈ r.path.getLast?, c ≠ '/' ∧ isWhitespace c = false := by
  intro c hc
  have h := hr.last
  rw [Option.mem_def.mp hc] at h
  simpa using h

/-- What the lower-casing keeps: ASCII is mapped letter by letter, nothing vanishes and nothing
else becomes a slash. -/
structure UnicodeTables.Lawful : Prop where
  ascii : ∀ c : Char, c.toNat < 128 → u.toLower c = [c.toLower]
  nonempty : ∀ c, u.toLower c ≠ []
  slash : ∀ c, '/' ∈ u.toLower c → c = '/'

/-- The spellings `canonical_corpus` takes apart: `git@` before a colon, and a URL whose first `@`
ends the user info; in both the host is a name. -/
def Remote.Recognised (r : Remote) : Prop :=
  ':' ∉ r.host ∧
    match r.spelling with
    | .url _ userinfo _ => userinfo = none → '@' ∉ r.path
    | .scp user => user = ['g', 'i', 't']

/-- The path is not taken for one with a `.git` suffix. -/
def Remote.PlainPath (r : Remote) : Prop :=
  'Σ' ∉ r.path ∧ ¬ dotGit <:+ toLowercase u r.path

variable {u}

theorem toLowercaseFrom_eq {s before : List Char} (hs : 'Σ' ∉ s) :
    toLowercaseFrom u before s = s.flatMap u.toLower := by
  induction s generalizing before with
  | nil => rfl
  | cons c s ih =>
    obtain ⟨hc, hs⟩ := not_or.mp (fun h => hs (List.mem_cons.mpr h))
    rw [toLowercaseFrom, if_neg (Ne.symm hc), ih hs, List.flatMap_cons]

theorem toLowercase_append {s t : List Char} (hs : 'Σ' ∉ s) (ht : 'Σ' ∉ t) :
    toLowercase u (s ++ t) = toLowercase u s ++ toLowercase u t := by
  have hst : 'Σ' ∉ s ++ t := by simp [hs, ht]
  rw [toLowercase, toLowercase, toLowercase, toLowercaseFrom_eq hst, toLowercaseFrom_eq hs,
    toLowercaseFrom_eq ht, List.flatMap_append]

theorem slash_mem_toLowercaseFrom (hu : u.Lawful) {s before : List Char} :
    '/' ∈ toLowercaseFrom u before s → '/' ∈ s := by
  induction s generalizing before with
  | nil => exact id
  | cons c s ih =>
    rw [toLowercaseFrom, List.mem_append]
    intro h
    rcases h with h | h
    · split_ifs at h with hc hf
      · simp at h
      · simp at h
      · rw [hu.slash c h]
        exact List.mem_cons_self
    · exact List.mem_cons_of_mem c (ih h)

theorem splitOnce_scheme {s t : List Char} (hs : ':' ∉ s) :
    splitOnce [':', '/', '/'] (s ++ ([':', '/', '/'] ++ t)) = some (s, t) := by
  induction s with
  | nil => simp [splitOnce]
  | cons a s ih =>
    obtain ⟨ha, hs⟩ := not_or.mp (fun h => hs (List.mem_cons.mpr h))
    have hrest := ih hs
    rw [List.cons_append, splitOnce, hrest]
    simp [ha]

theorem splitOn_headD {s t : List Char} (hs : ':' ∉ s) (ht : t = [] ∨ ∃ p, t = ':' :: p) :
    (splitOn (· == ':') (s ++ t)).headD (s ++ t) = s := by
  have hhead : ∀ s : List Char, ':' ∉ s → ∃ ws, splitOn (· == ':') (s ++ t) = s :: ws := by
    intro s hs
    induction s with
    | nil =>
      rcases ht with h | ⟨p, h⟩
      · exact ⟨[], by rw [h]; rfl⟩
      · exact ⟨splitOn (· == ':') p, by rw [h]; simp [splitOn]⟩
    | cons a s ih =>
      obtain ⟨ha, hs⟩ := not_or.mp (fun h => hs (List.mem_cons.mpr h))
      obtain ⟨ws, hws⟩ := ih hs
      refine ⟨ws, ?_⟩
      have hne : (a == ':') = false := by simp [Ne.symm ha]
      simp only [List.cons_append, splitOn, hne, Bool.false_eq_true, if_false]
      rw [hws]
  obtain ⟨ws, hws⟩ := hhead s hs
  rw [hws]
  rfl

theorem trimEndMatches_of_not_suffix {pat s : List Char} {fuel : Nat} (hs : ¬ pat <:+ s) :
    trimEndMatches pat fuel s = s := by
  cases fuel with
  | zero => rfl
  | succ fuel =>
    rw [trimEndMatches, if_neg]
    rwa [List.isSuffixOf_iff_suffix]

theorem trimEndMatches_append {pat s : List Char} {fuel : Nat} (hs : ¬ pat <:+ s) :
    trimEndMatches pat (fuel + 1) (s ++ pat) = s := by
  rw [trimEndMatches, if_pos (List.isSuffixOf_iff_suffix.mpr (List.suffix_append s pat))]
  rw [List.length_append, Nat.add_sub_cancel, List.take_left']
  · exact trimEndMatches_of_not_suffix hs
  · rfl

theorem trimChars_eq {s : List Char} (hhead : ∀ c ∈ s.head?, isWhitespace c = false)
    (hlast : ∀ c ∈ s.getLast?, isWhitespace c = false) : trimChars s = s := by
  have hd : s.dropWhile isWhitespace = s := by
    rw [List.dropWhile_eq_self_iff]
    intro hpos
    have := hhead (s[0]) (by simp [List.head?_eq_getElem?, hpos])
    simp [this]
  have hr : s.rdropWhile isWhitespace = s := by
    rw [List.rdropWhile_eq_self_iff]
    intro hs
    have := hlast (s.getLast hs) (by simp [List.getLast?_eq_some_getLast hs])
    simp [this]
  rw [trimChars, hd]
  exact hr

theorem sigma_not_mem_dotGit : 'Σ' ∉ dotGit := by decide

theorem toLowercase_dotGit (hu : u.Lawful) : toLowercase u dotGit = dotGit := by
  rw [toLowercase, toLowercaseFrom_eq sigma_not_mem_dotGit]
  simp only [dotGit, List.flatMap_cons, List.flatMap_nil]
  rw [hu.ascii '.' (by decide), hu.ascii 'g' (by decide), hu.ascii 'i' (by decide),
    hu.ascii 't' (by decide)]
  rfl

theorem toLowercase_slash (hu : u.Lawful) : toLowercase u ['/'] = ['/'] := by
  rw [toLowercase, toLowercaseFrom_eq (by decide)]
  simp only [List.flatMap_cons, List.flatMap_nil]
  rw [hu.ascii '/' (by decide)]
  rfl

theorem rdropWhile_toLowercase (hu : u.Lawful) {s : List Char} (hs : 'Σ' ∉ s)
    (hlast : ∀ c ∈ s.getLast?, c ≠ '/') :
    (toLowercase u s).rdropWhile (· == '/') = toLowercase u s := by
  rcases List.eq_nil_or_concat s with h | ⟨p, c, h⟩
  · rw [h]
    rfl
  · have hc : c ≠ '/' := hlast c (by rw [h]; simp)
    have hsplit : toLowercase u s = p.flatMap u.toLower ++ u.toLower c := by
      rw [toLowercase, toLowercaseFrom_eq hs, h]
      simp
    rw [hsplit, List.rdropWhile_eq_self_iff]
    intro hne
    rw [List.getLast_append_of_ne_nil hne (hu.nonempty c), beq_iff_eq]
    intro hslash
    exact hc (hu.slash c (hslash ▸ List.getLast_mem (hu.nonempty c)))

theorem normalizePath_tail (hu : u.Lawful) {r : Remote} (hr : r.WellFormed) (hp : r.PlainPath u) :
    normalizePath u r.tail = toLowercase u r.path := by
  have hpath := rdropWhile_toLowercase hu hp.1 fun c hc => (hr.last_spec c hc).1
  have hgit : 'Σ' ∉ r.path ++ dotGit := by simp [hp.1, sigma_not_mem_dotGit]
  have hpathGit : (toLowercase u (r.path ++ dotGit)).rdropWhile (· == '/') =
      toLowercase u r.path ++ dotGit := by
    rw [rdropWhile_toLowercase hu hgit (by simp [dotGit]),
      toLowercase_append hp.1 sigma_not_mem_dotGit, toLowercase_dotGit hu]
  have hslash : ∀ s : List Char, 'Σ' ∉ s →
      (toLowercase u (s ++ ['/'])).rdropWhile (· == '/') =
        (toLowercase u s).rdropWhile (· == '/') := by
    intro s hs
    rw [toLowercase_append hs (by decide), toLowercase_slash hu]
    exact List.rdropWhile_concat_pos _ _ _ rfl
  have hlower : (toLowercase u r.tail).rdropWhile (· == '/') =
      toLowercase u r.path ++ if r.suffix then dotGit else [] := by
    rw [Remote.tail]
    by_cases hsuf : r.suffix = true <;> by_cases hsl : r.slash = true <;>
      simp only [hsuf, hsl, if_true, Bool.false_eq_true, if_false, List.append_nil,
        List.nil_append, ← List.append_assoc]
    · rw [hslash _ hgit, hpathGit]
    · exact hpathGit
    · rw [hslash _ hp.1, hpath]
    · exact hpath
  simp only [normalizePath]
  rw [hlower]
  by_cases hsuf : r.suffix = true
  · rw [if_pos hsuf]
    have hfuel : (toLowercase u r.path ++ dotGit).length = (toLowercase u r.path).length + 3 + 1 := by
      simp [dotGit]
    rw [hfuel]
    exact trimEndMatches_append hp.2
  · rw [if_neg hsuf, List.append_nil]
    exact trimEndMatches_of_not_suffix hp.2

theorem getLast?_tail {r : Remote} (hr : r.WellFormed) (pre : List Char) :
    ∀ c ∈ (pre ++ r.tail).getLast?, isWhitespace c = false := by
  have htail : r.tail ≠ [] := by simp [Remote.tail, hr.path]
  rw [List.getLast?_append_of_ne_nil pre htail, Remote.tail]
  by_cases hsl : r.slash = true
  · simp only [hsl, if_true, ← List.append_assoc, List.getLast?_append_cons]
    simp [isWhitespace]
  · by_cases hsuf : r.suffix = true
    · simp only [hsuf, hsl, if_true, Bool.false_eq_true, if_false, List.append_nil]
      simp [dotGit, isWhitespace]
    · simp only [hsuf, hsl, Bool.false_eq_true, if_false, List.append_nil]
      exact fun c hc => (hr.last_spec c hc).2

theorem canonicalCorpus_url (hu : u.Lawful) {r : Remote} (hr : r.WellFormed) (hp : r.PlainPath u)
    (hrec : r.Recognised) {scheme : List Char} {userinfo port : Option (List Char)}
    (hs : r.spelling = .url scheme userinfo port) :
    canonicalCorpus u r.text = toLowercase u r.host ++ '/' :: toLowercase u r.path := by
  obtain ⟨hne, hscheme, hinfo, hport⟩ : (Spelling.url scheme userinfo port).WellFormed :=
    hs ▸ hr.spelling
  have hscheme : ∀ c ∈ scheme, c ≠ ':' ∧ c ≠ '@' ∧ isWhitespace c = false := by
    simpa [and_assoc] using hscheme
  set portText := (port.map fun p => ':' :: p).getD [] with hpt
  set rest := r.host ++ portText ++ '/' :: r.tail with hrest
  have htext : r.text =
      scheme ++ ([':', '/', '/'] ++ ((userinfo.map fun i => i ++ ['@']).getD [] ++ rest)) := by
    rw [Remote.text, hs]
    simp [hrest, hpt]
  have htrim : trimChars r.text = r.text := by
    refine trimChars_eq ?_ ?_
    · intro c hc
      obtain ⟨a, as, rfl⟩ := List.exists_cons_of_ne_nil hne
      rw [htext] at hc
      simp only [List.cons_append, List.head?_cons, Option.mem_def, Option.some.injEq] at hc
      exact hc ▸ (hscheme a List.mem_cons_self).2.2
    · have hend : r.text = (scheme ++ ([':', '/', '/'] ++
          ((userinfo.map fun i => i ++ ['@']).getD [] ++ (r.host ++ portText ++ ['/'])))) ++
            r.tail := by
        rw [htext, hrest]
        simp
      rw [hend]
      exact getLast?_tail hr _
  -- neither a scheme nor what closes it holds an `@`, so the text does not start with `git@`
  have hscp : stripPrefix ['g', 'i', 't', '@'] r.text = none := by
    rw [stripPrefix, if_neg]
    intro hpre
    rw [htext, ← List.append_assoc, List.isPrefixOf_iff_prefix] at hpre
    have hlen : ['g', 'i', 't', '@'].length ≤ (scheme ++ [':', '/', '/']).length := by
      have := List.length_pos_of_ne_nil hne
      simp only [List.length_cons, List.length_nil, List.length_append]
      omega
    have hpre' := List.prefix_of_prefix_length_le hpre (List.prefix_append _ _) hlen
    have hat : '@' ∈ scheme ++ [':', '/', '/'] := hpre'.subset (by decide)
    rcases List.mem_append.mp hat with h | h
    · exact (hscheme '@' h).2.1 rfl
    · simp at h
  have hport : ∀ c ∈ portText, c ≠ '/' ∧ c ≠ '@' := by
    intro c hc
    cases port with
    | none => simp [hpt] at hc
    | some p =>
      rcases List.mem_cons.mp hc with h | h
      · rw [h]
        decide
      · have hd := List.all_eq_true.mp hport c h
        constructor <;> (intro heq; rw [heq] at hd; revert hd; decide)
  have hat : ((splitOnce ['@'] ((userinfo.map fun i => i ++ ['@']).getD [] ++ rest)).map
      Prod.snd).getD ((userinfo.map fun i => i ++ ['@']).getD [] ++ rest) = rest := by
    cases hi : userinfo with
    | none =>
      have hpath : '@' ∉ r.path := by
        have := hrec
        rw [Remote.Recognised, hs] at this
        exact this.2 hi
      have htail : '@' ∉ r.tail := by
        rw [Remote.tail]
        cases r.suffix <;> cases r.slash <;> simp [hpath, dotGit]
      have hnone : splitOnce ['@'] rest = none := by
        refine splitOnce_singleton_eq_none ?_
        rw [hrest]
        simp only [List.mem_append, List.mem_cons, not_or]
        exact ⟨⟨hr.not_mem_host.2, fun h => (hport _ h).2 rfl⟩, by decide, htail⟩
      simp [hnone]
    | some i =>
      have hno : '@' ∉ i := by
        intro h
        rw [hi] at hinfo
        have := List.all_eq_true.mp hinfo '@' h
        revert this
        decide
      have hshape : ((some i).map fun i => i ++ ['@']).getD [] ++ rest = i ++ '@' :: rest := by simp
      rw [hshape, splitOnce_singleton hno]
      rfl
  have hslash : splitOnce ['/'] rest = some (r.host ++ portText, r.tail) := by
    refine splitOnce_singleton ?_
    simp only [List.mem_append, not_or]
    exact ⟨hr.not_mem_host.1, fun h => (hport _ h).1 rfl⟩
  have hhost : (splitOn (· == ':') (r.host ++ portText)).headD (r.host ++ portText) = r.host := by
    refine splitOn_headD hrec.1 ?_
    cases port with
    | none => exact Or.inl rfl
    | some p => exact Or.inr ⟨p, rfl⟩
  have hcolon : ':' ∉ scheme := fun h => (hscheme _ h).1 rfl
  rw [canonicalCorpus, htrim, hscp]
  simp only [Option.bind_none]
  rw [htext, splitOnce_scheme hcolon]
  simp only [Option.map_some, Option.getD_some]
  rw [hat, hslash]
  simp only
  rw [hhost, normalizePath_tail hu hr hp]

theorem canonicalCorpus_scp (hu : u.Lawful) {r : Remote} (hr : r.WellFormed) (hp : r.PlainPath u)
    (hrec : r.Recognised) (hs : r.spelling = .scp ['g', 'i', 't']) :
    canonicalCorpus u r.text = toLowercase u r.host ++ '/' :: toLowercase u r.path := by
  have htext : r.text = ['g', 'i', 't', '@'] ++ (r.host ++ ':' :: r.tail) := by
    rw [Remote.text, hs]
    rfl
  have htrim : trimChars r.text = r.text := by
    refine trimChars_eq ?_ ?_
    · intro c hc
      rw [htext] at hc
      simp only [List.cons_append, List.head?_cons, Option.mem_def, Option.some.injEq] at hc
      rw [← hc]
      decide
    · have hend : r.text = (['g', 'i', 't', '@'] ++ (r.host ++ [':'])) ++ r.tail := by
        rw [htext]
        simp
      rw [hend]
      exact getLast?_tail hr _
  have hstrip : stripPrefix ['g', 'i', 't', '@'] r.text = some (r.host ++ ':' :: r.tail) := by
    rw [htext, stripPrefix, if_pos (List.isPrefixOf_iff_prefix.mpr (List.prefix_append _ _))]
    rfl
  rw [canonicalCorpus, htrim, hstrip, Option.bind_some,
    splitOnce_singleton hrec.1]
  simp only
  rw [normalizePath_tail hu hr hp]

/-- Every spelling of a repository gives `host/path` in lower case, and two remotes get one corpus
exactly when their hosts and their paths are the same up to letter case. -/
theorem canonicalCorpus_identifies (hu : u.Lawful) (a b : Remote) (ha : a.WellFormed)
    (hb : b.WellFormed) (hra : a.Recognised) (hrb : b.Recognised) (hpa : a.PlainPath u)
    (hpb : b.PlainPath u) :
    canonicalCorpus u a.text = toLowercase u a.host ++ '/' :: toLowercase u a.path ∧
    (canonicalCorpus u a.text = canonicalCorpus u b.text ↔
      toLowercase u a.host = toLowercase u b.host ∧
        toLowercase u a.path = toLowercase u b.path) := by
  have hcanon : ∀ r : Remote, r.WellFormed → r.Recognised → r.PlainPath u →
      canonicalCorpus u r.text = toLowercase u r.host ++ '/' :: toLowercase u r.path := by
    intro r hr hrec hp
    cases hs : r.spelling with
    | url scheme userinfo port => exact canonicalCorpus_url hu hr hp hrec hs
    | scp user =>
      have huser : user = ['g', 'i', 't'] := by
        have := hrec.2
        rwa [hs] at this
      exact canonicalCorpus_scp hu hr hp hrec (huser ▸ hs)
  have hhost : ∀ r : Remote, r.WellFormed → '/' ∉ toLowercase u r.host :=
    fun r hr h => hr.not_mem_host.1 (slash_mem_toLowercaseFrom hu h)
  refine ⟨hcanon a ha hra hpa, ?_⟩
  rw [hcanon a ha hra hpa, hcanon b hb hrb hpb]
  constructor
  · intro h
    have hsplit := congrArg (splitOnce ['/']) h
    rw [splitOnce_singleton (hhost a ha), splitOnce_singleton (hhost b hb)] at hsplit
    exact Prod.mk.inj (Option.some.inj hsplit)
  · intro h
    rw [h.1, h.2]

theorem slash_of_toLower {c : Char} (hc : '/' = c.toLower) : c = '/' := by
  delta Char.toLower at hc
  split at hc
  · rename_i hup
    have hval : ('/' : Char).val.toNat = (c.val + ('a'.val - 'A'.val)).toNat :=
      congrArg (fun c : Char => c.val.toNat) hc
    have hlo := UInt32.le_iff_toNat_le.mp hup.1
    have hhi := UInt32.le_iff_toNat_le.mp hup.2
    rw [UInt32.toNat_add] at hval
    have hslash : ('/' : Char).val.toNat = 47 := rfl
    have hshift : ('a'.val - 'A'.val).toNat = 32 := rfl
    have hA : ('A' : Char).val.toNat = 65 := rfl
    have hZ : ('Z' : Char).val.toNat = 90 := rfl
    omega
  · exact hc.symm

/-- The tables for text whose only letters are ASCII ones: a capital sigma is final after a letter
and with no letter after it, dots aside. -/
def asciiTables : UnicodeTables where
  toLower c := [c.toLower]
  isFinalSigma before after :=
    before.getLast?.any Char.isAlpha && !(after.dropWhile (· == '.')).head?.any Char.isAlpha
  isAlphanumeric c := c.isAlphanum

theorem asciiTables_lawful : asciiTables.Lawful where
  ascii _ _ := rfl
  nonempty _ := List.cons_ne_nil _ _
  slash _ hc := slash_of_toLower (List.mem_singleton.mp hc)

def https (userinfo port : Option (List Char)) : Spelling := .url "https".toList userinfo port

/-- `https://alice@GitHub.com:443/acme/foo.git/` and `git@github.com:Acme/foo`. -/
theorem canonicalCorpus_acme :
    let a : Remote := ⟨https (some "alice".toList) (some "443".toList), "GitHub.com".toList,
      "acme/foo".toList, true, true⟩
    let b : Remote := ⟨.scp "git".toList, "github.com".toList, "Acme/foo".toList, false, false⟩
    canonicalCorpus asciiTables a.text = "github.com/acme/foo".toList ∧
      canonicalCorpus asciiTables a.text = canonicalCorpus asciiTables b.text := by
  intro a b
  have ha : a.WellFormed := by decide
  have hb : b.WellFormed := by decide
  have h := canonicalCorpus_identifies asciiTables_lawful a b ha hb
    ⟨by decide, fun h => nomatch h⟩ ⟨by decide, rfl⟩ ⟨by decide, by decide⟩ ⟨by decide, by decide⟩
  exact ⟨h.1, h.2.mpr ⟨by decide, by decide⟩⟩

/-- One repository under two corpora: by the user of a scp-like remote, and by a `.git` after a
capital sigma. -/
def apart : List (Remote × Remote) :=
  [(⟨.scp "alice".toList, "h".toList, "acme/foo".toList, false, false⟩,
      ⟨.scp "git".toList, "h".toList, "acme/foo".toList, false, false⟩),
    (⟨https none none, "h".toList, "acme/aΣ".toList, true, false⟩,
      ⟨https none none, "h".toList, "acme/aΣ".toList, false, false⟩)]

/-- Two repositories in one corpus: by letter case, by the user of a scp-like remote, by an `@` in
the path, by a name that ends in `.git` and by a host that is an address. -/
def together : List (Remote × Remote) :=
  [(⟨https none none, "h".toList, "Acme/foo".toList, false, false⟩,
      ⟨https none none, "h".toList, "acme/foo".toList, false, false⟩),
    (⟨.scp "alice".toList, "h".toList, "acme/foo".toList, false, false⟩,
      ⟨.scp "alice".toList, "h".toList, "evil/foo".toList, false, false⟩),
    (⟨https none none, "evil".toList, "x@h/acme/foo".toList, false, false⟩,
      ⟨https none none, "h".toList, "acme/foo".toList, false, false⟩),
    (⟨https none none, "h".toList, "acme/foo.git".toList, false, false⟩,
      ⟨https none none, "h".toList, "acme/foo".toList, false, false⟩),
    (⟨https none none, "[::1]".toList, "acme/foo".toList, false, false⟩,
      ⟨https none none, "[::2]".toList, "acme/foo".toList, false, false⟩)]

/-- Neither half holds of every host, path and spelling. -/
theorem canonicalCorpus_not_by_host_and_path :
    (∀ p ∈ apart, p.1.host = p.2.host ∧ p.1.path = p.2.path ∧
      canonicalCorpus asciiTables p.1.text ≠ canonicalCorpus asciiTables p.2.text) ∧
    (∀ p ∈ together, (p.1.host ≠ p.2.host ∨ p.1.path ≠ p.2.path) ∧
      canonicalCorpus asciiTables p.1.text = canonicalCorpus asciiTables p.2.text) ∧
    ∀ p ∈ apart ++ together, p.1.WellFormed ∧ p.2.WellFormed := by
  refine ⟨?_, ?_, ?_⟩
  · decide +kernel
  · decide +kernel
  · decide +kernel

end Travsr.Core.Corpus
