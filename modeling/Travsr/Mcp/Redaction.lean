import Travsr.Mcp.Sanitize

open Travsr.Core.Text Scan

namespace Travsr.Mcp

/-- The clusters of ASCII text: a line feed joins the carriage return before it, and every other
character stands alone. -/
def asciiClusters : List Char → List (List Char)
  | [] => []
  | c :: cs =>
    match asciiClusters cs with
    | ['\n'] :: gs => if c = '\r' then ['\r', '\n'] :: gs else [c] :: ['\n'] :: gs
    | gs => [c] :: gs

def Ascii (s : List Char) : Prop := ∀ c ∈ s, c.toNat < 128

instance (s : List Char) : Decidable (Ascii s) := List.decidableBAll _ s

/-- What the two Unicode functions are on ASCII text. -/
structure Unicode.Lawful (u : Unicode) : Prop where
  graphemes : ∀ s, Ascii s → u.graphemes s = asciiClusters s
  isAlphanumeric : ∀ c : Char, c.toNat < 128 → u.isAlphanumeric c = c.isAlphanum

/-- A letter, a digit, `_`, `-` or `.`. -/
def isMaterial (c : Char) : Bool := c.isAlphanum || c == '_' || c == '-' || c == '.'

/-- The two markers a user name follows. -/
def IsMarker (m : List Char) : Prop := m = homeMarker ∨ m = usersMarker

/-- Two texts that are the same but for the names after the markers: `IsName` says what stands
there as a name, and `Ends` what follows it. -/
inductive SameContext (IsName : List Char → Prop) (Ends : List Char → List Char → Prop) :
    List Char → List Char → Prop
  | nil : SameContext IsName Ends [] []
  | char (c : Char) {s t : List Char} :
      (∀ m, IsMarker m → ¬ m <+: c :: s ∧ ¬ m <+: c :: t) → SameContext IsName Ends s t →
        SameContext IsName Ends (c :: s) (c :: t)
  | name (m n n' : List Char) {s t : List Char} :
      IsMarker m → IsName n → IsName n' → Ends m s → Ends m t → SameContext IsName Ends s t →
        SameContext IsName Ends (m ++ (n ++ s)) (m ++ (n' ++ t))

/-- User names of username material, the two directory names of the markers aside. -/
structure IsUserName (n : List Char) : Prop where
  ne_nil : n ≠ []
  material : ∀ c ∈ n, isMaterial c
  ne_home : n ≠ ['h', 'o', 'm', 'e']
  ne_users : n ≠ ['U', 's', 'e', 'r', 's']

/-- The name ends here, and the same marker does not follow at once. -/
structure EndsName (m s : List Char) : Prop where
  not_marker : ¬ m <+: s
  not_material : ∀ c ∈ s.head?, isMaterial c = false

/-! ### What one pass does -/

section pass

variable {u : Unicode} {m n s t : List Char} {c : Char}

theorem IsMarker.eq_slash (hm : IsMarker m) : ∃ w, m = '/' :: (w ++ ['/']) ∧
    (w = ['h', 'o', 'm', 'e'] ∨ w = ['U', 's', 'e', 'r', 's']) := by
  rcases hm with h | h
  · exact ⟨['h', 'o', 'm', 'e'], h, Or.inl rfl⟩
  · exact ⟨['U', 's', 'e', 'r', 's'], h, Or.inr rfl⟩

theorem IsMarker.ne_nil (hm : IsMarker m) : m ≠ [] := by
  obtain ⟨w, hw, _⟩ := hm.eq_slash
  simp [hw]

theorem ne_slash_of_material (hc : isMaterial c = true) : c ≠ '/' ∧ c ≠ '\\' := by
  constructor <;> (intro h; rw [h] at hc; revert hc; decide)

theorem usernameRun_asciiClusters (hu : u.Lawful) (hs : Ascii s) :
    usernameRun u (asciiClusters s) = (s.takeWhile isMaterial).length := by
  have hbase : ∀ c : Char, c.toNat < 128 → isUsernameMaterialBase u c = isMaterial c := by
    intro c hc
    rw [isUsernameMaterialBase, isMaterial, hu.isAlphanumeric c hc]
  induction s with
  | nil => rfl
  | cons c s ih =>
    have hc := hbase c (hs c List.mem_cons_self)
    have hrest := ih fun d hd => hs d (List.mem_cons_of_mem c hd)
    have hmat : isMaterial '\r' = false := by decide
    rw [asciiClusters]
    split
    · rename_i gs hgs
      rw [hgs] at hrest
      split_ifs with hcr
      · rw [hcr] at hc
        simp [usernameRun, hc, hcr, hmat]
      · rw [usernameRun, hrest]
        by_cases h : isMaterial c = true <;> simp [hc, h, Nat.add_comm]
    · rw [usernameRun, hrest]
      by_cases h : isMaterial c = true <;> simp [hc, h, Nat.add_comm]

theorem usernameRunEnd_name (hu : u.Lawful) (hs : Ascii (n ++ s)) (hne : n ≠ [])
    (hn : ∀ c ∈ n, isMaterial c) (hend : ∀ c ∈ s.head?, isMaterial c = false) :
    usernameRunEnd u (n ++ s) = n.length := by
  have htake : (n ++ s).takeWhile isMaterial = n := by
    rw [List.takeWhile_append_of_pos hn]
    have hnil : s.takeWhile isMaterial = [] := by
      cases s with
      | nil => rfl
      | cons c s => simp [hend c rfl]
    rw [hnil, List.append_nil]
  have hrun : usernameRun u (u.graphemes (n ++ s)) = n.length := by
    rw [hu.graphemes _ hs, usernameRun_asciiClusters hu hs, htake]
  have hpos : n.length ≠ 0 := by simpa using hne
  simp only [usernameRunEnd]
  rw [hrun, if_neg hpos]

theorem replaceUser_le (s : List Char) : (replaceUser u s).2.length ≤ s.length := by
  rw [replaceUser]
  split_ifs
  · simp only [List.length_drop]
    omega
  · simp only [List.length_drop]
    omega

theorem replaceHome_le (home s : List Char) : (replaceHome home s).2.length ≤ s.length := by
  rw [replaceHome]
  split_ifs <;> exact Nat.le_refl _

/-- A name gives `~` and the text after it stays, unless the next marker shares its slash. -/
theorem redactUnixHomeRun_name (hu : u.Lawful) (hm : IsMarker m) (hs : Ascii (n ++ s))
    (hn : IsUserName n) (he : EndsName m s) :
    redactUnixHomeRun u (m ++ (n ++ s)) m = '~' :: redactUnixHomeRun u s m := by
  have hrun := usernameRunEnd_name hu hs hn.ne_nil hn.material he.not_material
  have hdrop : (n ++ s).drop n.length = s := List.drop_left
  rw [redactUnixHomeRun, replaceEach_append hm.ne_nil replaceUser_le, replaceUser]
  simp only [hrun, hdrop]
  split_ifs with hslash
  · obtain ⟨r, rfl⟩ : ∃ r, s = '/' :: r := by
      cases s with
      | nil => simp at hslash
      | cons d r => exact ⟨r, by simp at hslash; rw [hslash]⟩
    rw [redactUnixHomeRun, replaceEach_cons hm.ne_nil replaceUser_le he.not_marker]
    rfl
  · rfl

theorem signs_replaceUser : Signs '~' m (replaceUser u) := by
  intro s
  rw [replaceUser]
  split_ifs <;> exact Or.inl rfl

theorem signs_replaceHome (home : List Char) : Signs '~' home (replaceHome home) := by
  intro s
  rw [replaceHome]
  split_ifs
  · exact Or.inl rfl
  · exact Or.inr rfl

/-- A marker begins neither at the last slash of another one nor inside the name after it. -/
theorem not_marker_inside (hm : IsMarker m) (hn : IsUserName n)
    (he : ∀ c ∈ s.head?, isMaterial c = false) (r : List Char) (hr : r ≠ [])
    (hrn : r <:+ '/' :: n) : ¬ m <+: r ++ s := by
  obtain ⟨w, hw, hword⟩ := hm.eq_slash
  have hne : n ≠ w := by
    rcases hword with h | h
    · exact h ▸ hn.ne_home
    · exact h ▸ hn.ne_users
  have hmat : ∀ c ∈ w, isMaterial c = true := by
    rw [← List.all_eq_true]
    rcases hword with h | h <;> (rw [h]; decide)
  intro hpre
  -- only the slash before the name can start it
  have hr' : r = '/' :: n := by
    rcases List.suffix_cons_iff.mp hrn with h | h
    · exact h
    · obtain ⟨x, xs, rfl⟩ := List.exists_cons_of_ne_nil hr
      rw [hw, List.cons_append] at hpre
      have hx : '/' = x := (List.cons_prefix_cons.mp hpre).1
      exact absurd hx.symm (ne_slash_of_material (hn.material x (h.subset List.mem_cons_self))).1
  rw [hr', hw, List.cons_append, List.cons_prefix_cons] at hpre
  obtain ⟨rest, hrest⟩ := hpre.2
  rw [List.append_assoc] at hrest
  rcases List.append_eq_append_iff.mp hrest with ⟨a, ha, has⟩ | ⟨a, ha, has⟩
  · cases a with
    | nil => exact hne (by simpa using ha)
    | cons x a =>
      have hx : x = '/' := by
        have := congrArg List.head? has
        simpa using this.symm
      exact (ne_slash_of_material (hn.material x (by rw [ha]; simp))).1 hx
  · cases a with
    | nil => exact hne (by simpa using ha.symm)
    | cons x a =>
      have hx := he x (by rw [has]; rfl)
      rw [hmat x (by rw [ha]; simp)] at hx
      exact absurd hx (by simp)

theorem replaceEach_other {pat : List Char} {f : List Char → List Char × List Char} {m' : List Char}
    (hm : IsMarker m) (hpat : m <+: pat) (hf : ∀ s, (f s).2.length ≤ s.length)
    (hm' : IsMarker m') (hn : IsUserName n) (he : ∀ c ∈ s.head?, isMaterial c = false)
    (hpre : ¬ pat <+: m' ++ (n ++ s)) :
    replaceEach pat f (m' ++ (n ++ s)) = m' ++ (n ++ replaceEach pat f s) := by
  obtain ⟨w, hw, hword⟩ := hm'.eq_slash
  have hpatne : pat ≠ [] := by
    obtain ⟨q, rfl⟩ := hpat
    simp [hm.ne_nil]
  have hslash : '/' ∉ w := by
    rcases hword with h | h <;> (rw [h]; decide)
  have hshape : m' ++ (n ++ s) = ('/' :: w) ++ (('/' :: n) ++ s) := by
    rw [hw]
    simp
  rw [hshape] at hpre ⊢
  have htail : replaceEach pat f (('/' :: n) ++ s) = ('/' :: n) ++ replaceEach pat f s := by
    refine replaceEach_stretch hpatne hf fun r hr hrn h => ?_
    exact not_marker_inside hm hn he r hr hrn (hpat.trans h)
  rw [replaceEach_stretch hpatne hf, htail, hw]
  · simp
  · intro r hr hrw h
    rcases List.suffix_cons_iff.mp hrw with h' | h'
    · rw [h'] at h
      exact hpre h
    · obtain ⟨x, xs, rfl⟩ := List.exists_cons_of_ne_nil hr
      obtain ⟨v, hv, _⟩ := hm.eq_slash
      have hm0 := hpat.trans h
      rw [hv, List.cons_append] at hm0
      have hx : '/' = x := (List.cons_prefix_cons.mp hm0).1
      exact hslash (hx ▸ h'.subset List.mem_cons_self)

theorem endsName_replaceEach {pat : List Char} {f : List Char → List Char × List Char}
    (hpat : pat ≠ []) (hf : ∀ s, (f s).2.length ≤ s.length) (hsign : Signs '~' pat f)
    (hm : IsMarker m) (he : EndsName m s) : EndsName m (replaceEach pat f s) := by
  have hnot : ∀ p : List Char, '~' ∉ p → ¬ p <+: s → ¬ p <+: replaceEach pat f s :=
    fun p hp h hp' => h (prefix_of_prefix_replaceEach hpat hf hsign hp hp')
  refine ⟨hnot m ?_ he.not_marker, ?_⟩
  · rcases hm with h | h <;> (rw [h]; decide)
  · intro c hc
    by_cases htilde : c = '~'
    · rw [htilde]
      decide
    · have hhead : [c] <+: replaceEach pat f s := by
        cases hr : replaceEach pat f s with
        | nil => simp [hr] at hc
        | cons x xs =>
          rw [hr] at hc
          simp only [List.head?_cons, Option.mem_def, Option.some.injEq] at hc
          rw [hc]
          exact ⟨xs, rfl⟩
      obtain ⟨xs, hxs⟩ := prefix_of_prefix_replaceEach hpat hf hsign
        (by simpa using Ne.symm htilde) hhead
      exact he.not_material c (by rw [← hxs]; rfl)

end pass

/-- Two texts in the course of the redaction: the same but for the names after the markers that are
still to come, where one side may already read `~`. -/
inductive Alike (ms : List (List Char)) : List Char → List Char → Prop
  | nil : Alike ms [] []
  | char (c : Char) {s t : List Char} :
      (∀ m ∈ ms, ¬ m <+: c :: s ∧ ¬ m <+: c :: t) → Alike ms s t → Alike ms (c :: s) (c :: t)
  | name (m n n' : List Char) {s t : List Char} :
      m ∈ ms → IsUserName n → IsUserName n' → EndsName m s → EndsName m t → Alike ms s t →
        Alike ms (m ++ (n ++ s)) (m ++ (n' ++ t))
  | left (m n : List Char) {s t : List Char} :
      m ∈ ms → IsUserName n → EndsName m t → Alike ms s t → Alike ms ('~' :: s) (m ++ (n ++ t))
  | right (m n : List Char) {s t : List Char} :
      m ∈ ms → IsUserName n → EndsName m s → Alike ms s t → Alike ms (m ++ (n ++ s)) ('~' :: t)

section run

variable {u : Unicode} {ms : List (List Char)} {m s t : List Char}

theorem not_marker_tilde (hm : IsMarker m) : ¬ m <+: '~' :: s := by
  obtain ⟨w, hw, _⟩ := hm.eq_slash
  intro h
  rw [hw] at h
  have := (List.cons_prefix_cons.mp h).1
  revert this
  decide

theorem Alike.tilde (hms : ∀ m ∈ ms, IsMarker m) (h : Alike ms s t) :
    Alike ms ('~' :: s) ('~' :: t) :=
  .char '~' (fun m hm => ⟨not_marker_tilde (hms m hm), not_marker_tilde (hms m hm)⟩) h

theorem tilde_not_mem_marker (hm : IsMarker m) : '~' ∉ m := by
  rcases hm with h | h <;> (rw [h]; decide)

theorem not_prefix_replaceEach {pat : List Char} {f : List Char → List Char × List Char} {c : Char}
    (hpat : pat ≠ []) (hf : ∀ s, (f s).2.length ≤ s.length) (hsign : Signs '~' pat f)
    (hm : IsMarker m) (h : ¬ m <+: c :: s) : ¬ m <+: c :: replaceEach pat f s := by
  obtain ⟨w, hw, hword⟩ := hm.eq_slash
  intro hpre
  rw [hw] at h hpre
  obtain ⟨hc, hrest⟩ := List.cons_prefix_cons.mp hpre
  refine h (List.cons_prefix_cons.mpr ⟨hc, ?_⟩)
  refine prefix_of_prefix_replaceEach hpat hf hsign ?_ hrest
  have := tilde_not_mem_marker hm
  rw [hw] at this
  exact fun hmem => this (List.mem_cons_of_mem '/' hmem)

theorem Ascii.of_append {a b : List Char} (h : Ascii (a ++ b)) : Ascii a ∧ Ascii b :=
  ⟨fun c hc => h c (List.mem_append_left b hc), fun c hc => h c (List.mem_append_right a hc)⟩

theorem Ascii.tail {c : Char} (h : Ascii (c :: s)) : Ascii s :=
  fun d hd => h d (List.mem_cons_of_mem c hd)

theorem ascii_redactUnixHomeRun (hm : m ≠ []) (hs : Ascii s) : Ascii (redactUnixHomeRun u s m) := by
  refine forall_replaceEach hm ?_ hs
  intro r hr x hx
  have hdrop : ∀ k, x ∈ r.drop k → x.toNat < 128 :=
    fun k h => hr x (List.mem_append_right m (List.mem_of_mem_drop h))
  rw [replaceUser] at hx
  split_ifs at hx
  · simp only [List.cons_append, List.nil_append, List.mem_cons, List.drop_drop] at hx
    rcases hx with h | h | h
    · rw [h]; decide
    · rw [h]; decide
    · exact hdrop _ h
  · simp only [List.cons_append, List.nil_append, List.mem_cons] at hx
    rcases hx with h | h
    · rw [h]; decide
    · exact hdrop _ h

theorem ascii_replaceHomePrefixAtBoundary {home : List Char} (hhome : home ≠ []) (hs : Ascii s) :
    Ascii (replaceHomePrefixAtBoundary s home) := by
  refine forall_replaceEach hhome ?_ hs
  intro r hr x hx
  rw [replaceHome] at hx
  split_ifs at hx
  · simp only [List.cons_append, List.nil_append, List.mem_cons] at hx
    rcases hx with h | h
    · rw [h]; decide
    · exact hr x (List.mem_append_right home h)
  · exact hr x hx

/-- The first pass takes the names after `/home/` out of the difference. -/
theorem Alike.redact_home (hu : u.Lawful) (h : Alike [homeMarker, usersMarker] s t) (hs : Ascii s)
    (ht : Ascii t) :
    Alike [usersMarker] (redactUnixHomeRun u s homeMarker) (redactUnixHomeRun u t homeMarker) := by
  have hhome : IsMarker homeMarker := Or.inl rfl
  have husers : IsMarker usersMarker := Or.inr rfl
  have hms : ∀ m ∈ [usersMarker], IsMarker m := by simpa using husers
  have hne := hhome.ne_nil
  have htilde : ∀ s, redactUnixHomeRun u ('~' :: s) homeMarker =
      '~' :: redactUnixHomeRun u s homeMarker :=
    fun s => replaceEach_cons hne replaceUser_le (not_marker_tilde hhome)
  have hother : ∀ {n s}, IsUserName n → EndsName usersMarker s →
      redactUnixHomeRun u (usersMarker ++ (n ++ s)) homeMarker =
        usersMarker ++ (n ++ redactUnixHomeRun u s homeMarker) := by
    intro n s hn he
    refine replaceEach_other hhome List.prefix_rfl replaceUser_le husers hn he.not_material ?_
    intro hpre
    have := (List.cons_prefix_cons.mp (List.cons_prefix_cons.mp hpre).2).1
    revert this
    decide
  have hends : ∀ {s}, EndsName usersMarker s →
      EndsName usersMarker (redactUnixHomeRun u s homeMarker) :=
    fun he => endsName_replaceEach hne replaceUser_le signs_replaceUser husers he
  have hcases : ∀ {m}, m ∈ [homeMarker, usersMarker] → m = homeMarker ∨ m = usersMarker := by
    intro m hm
    simpa using hm
  induction h with
  | nil => exact .nil
  | char c hc h ih =>
    have hch := hc homeMarker (by simp)
    have hcu := hc usersMarker (by simp)
    rw [redactUnixHomeRun, redactUnixHomeRun, replaceEach_cons hne replaceUser_le hch.1,
      replaceEach_cons hne replaceUser_le hch.2]
    refine .char c ?_ (ih hs.tail ht.tail)
    intro m hm
    rw [List.mem_singleton.mp hm]
    exact ⟨not_prefix_replaceEach hne replaceUser_le signs_replaceUser husers hcu.1,
      not_prefix_replaceEach hne replaceUser_le signs_replaceUser husers hcu.2⟩
  | name m n n' hm hn hn' he he' h ih =>
    have hs' := hs.of_append.2
    have ht' := ht.of_append.2
    have hrest := ih hs'.of_append.2 ht'.of_append.2
    rcases hcases hm with rfl | rfl
    · rw [redactUnixHomeRun_name hu hhome hs' hn he, redactUnixHomeRun_name hu hhome ht' hn' he']
      exact hrest.tilde hms
    · rw [hother hn he, hother hn' he']
      exact .name usersMarker n n' (by simp) hn hn' (hends he) (hends he') hrest
  | left m n hm hn he h ih =>
    have ht' := ht.of_append.2
    have hrest := ih hs.tail ht'.of_append.2
    rw [htilde]
    rcases hcases hm with rfl | rfl
    · rw [redactUnixHomeRun_name hu hhome ht' hn he]
      exact hrest.tilde hms
    · rw [hother hn he]
      exact .left usersMarker n (by simp) hn (hends he) hrest
  | right m n hm hn he h ih =>
    have hs' := hs.of_append.2
    have hrest := ih hs'.of_append.2 ht.tail
    rw [htilde]
    rcases hcases hm with rfl | rfl
    · rw [redactUnixHomeRun_name hu hhome hs' hn he]
      exact hrest.tilde hms
    · rw [hother hn he]
      exact .right usersMarker n (by simp) hn (hends he) hrest

theorem Alike.redact_users (hu : u.Lawful) (h : Alike [usersMarker] s t) (hs : Ascii s)
    (ht : Ascii t) : redactUnixHomeRun u s usersMarker = redactUnixHomeRun u t usersMarker := by
  have husers : IsMarker usersMarker := Or.inr rfl
  have hne := husers.ne_nil
  have htilde : ∀ s, redactUnixHomeRun u ('~' :: s) usersMarker =
      '~' :: redactUnixHomeRun u s usersMarker :=
    fun s => replaceEach_cons hne replaceUser_le (not_marker_tilde husers)
  induction h with
  | nil => rfl
  | char c hc h ih =>
    have hcu := hc usersMarker (by simp)
    rw [redactUnixHomeRun, redactUnixHomeRun, replaceEach_cons hne replaceUser_le hcu.1,
      replaceEach_cons hne replaceUser_le hcu.2]
    exact congrArg _ (ih hs.tail ht.tail)
  | name m n n' hm hn hn' he he' h ih =>
    obtain rfl := List.mem_singleton.mp hm
    have hs' := hs.of_append.2
    have ht' := ht.of_append.2
    rw [redactUnixHomeRun_name hu husers hs' hn he, redactUnixHomeRun_name hu husers ht' hn' he',
      ih hs'.of_append.2 ht'.of_append.2]
  | left m n hm hn he h ih =>
    obtain rfl := List.mem_singleton.mp hm
    have ht' := ht.of_append.2
    rw [htilde, redactUnixHomeRun_name hu husers ht' hn he, ih hs.tail ht'.of_append.2]
  | right m n hm hn he h ih =>
    obtain rfl := List.mem_singleton.mp hm
    have hs' := hs.of_append.2
    rw [htilde, redactUnixHomeRun_name hu husers hs' hn he, ih hs'.of_append.2 ht.tail]

theorem alike_of_sameContext (h : SameContext IsUserName EndsName s t) :
    Alike [homeMarker, usersMarker] s t := by
  have hmark : ∀ m ∈ [homeMarker, usersMarker], IsMarker m := by
    intro m hm
    simpa [IsMarker] using hm
  induction h with
  | nil => exact .nil
  | char c hc h ih => exact .char c (fun m hm => hc m (hmark m hm)) ih
  | name m n n' hm hn hn' he he' h ih =>
    exact .name m n n' (by simpa [IsMarker] using hm) hn hn' he he' ih

theorem replaceHome_name {m₀ n₀ n : List Char} (hm₀ : IsMarker m₀)
    (hn₀ : ∀ c ∈ n₀, isMaterial c) (hm : IsMarker m) (hn : IsUserName n) (he : EndsName m s) :
    replaceHomePrefixAtBoundary (m ++ (n ++ s)) (m₀ ++ n₀) =
        '~' :: replaceHomePrefixAtBoundary s (m₀ ++ n₀) ∨
      replaceHomePrefixAtBoundary (m ++ (n ++ s)) (m₀ ++ n₀) =
        m ++ (n ++ replaceHomePrefixAtBoundary s (m₀ ++ n₀)) := by
  have hne : m₀ ++ n₀ ≠ [] := by simp [hm₀.ne_nil]
  by_cases hpre : m₀ ++ n₀ <+: m ++ (n ++ s)
  · have hmm : m₀ = m := by
      obtain ⟨r, hr⟩ := hpre
      rcases hm₀ with rfl | rfl <;> rcases hm with rfl | rfl
      · rfl
      · simp [homeMarker, usersMarker] at hr
      · simp [homeMarker, usersMarker] at hr
      · rfl
    subst hmm
    obtain ⟨r, hr⟩ := hpre
    rw [List.append_assoc] at hr
    have hrest := List.append_cancel_left hr
    -- the home directory is the whole name or the beginning of a longer one
    obtain ⟨a, rfl, rfl⟩ : ∃ a, n = n₀ ++ a ∧ r = a ++ s := by
      rcases List.append_eq_append_iff.mp hrest with ⟨a, ha, har⟩ | ⟨a, ha, has⟩
      · exact ⟨a, ha, har⟩
      · cases a with
        | nil => exact ⟨[], by simpa using ha.symm, by simpa using has.symm⟩
        | cons x a =>
          have hx := he.not_material x (by rw [has]; rfl)
          rw [hn₀ x (by rw [ha]; simp)] at hx
          exact absurd hx (by simp)
    have hcopy : replaceEach (m₀ ++ n₀) (replaceHome (m₀ ++ n₀)) (a ++ s) =
        a ++ replaceEach (m₀ ++ n₀) (replaceHome (m₀ ++ n₀)) s := by
      refine replaceEach_stretch hne (replaceHome_le _) fun q hq hqa h => ?_
      refine not_marker_inside hm₀ hn he.not_material q hq ?_ ((List.prefix_append m₀ n₀).trans h)
      exact (hqa.trans (List.suffix_append n₀ a)).trans (List.suffix_cons '/' _)
    have hshape : m₀ ++ (n₀ ++ a ++ s) = (m₀ ++ n₀) ++ (a ++ s) := by simp
    rw [hshape, replaceHomePrefixAtBoundary, replaceHomePrefixAtBoundary,
      replaceEach_append hne (replaceHome_le _), replaceHome]
    split_ifs with hb
    · have ha : a = [] := by
        cases a with
        | nil => rfl
        | cons x a =>
          have hx := ne_slash_of_material (hn.material x (by simp))
          simp [atBoundary, hx.1, hx.2] at hb
      rw [ha]
      exact Or.inl rfl
    · right
      dsimp only
      rw [hcopy]
      simp
  · right
    exact replaceEach_other hm₀ (List.prefix_append m₀ n₀) (replaceHome_le _) hm hn he.not_material
      hpre

theorem SameContext.replaceHome {m₀ n₀ : List Char} (hm₀ : IsMarker m₀)
    (hn₀ : ∀ c ∈ n₀, isMaterial c) (h : SameContext IsUserName EndsName s t) :
    Alike [homeMarker, usersMarker] (replaceHomePrefixAtBoundary s (m₀ ++ n₀))
      (replaceHomePrefixAtBoundary t (m₀ ++ n₀)) := by
  have hne : m₀ ++ n₀ ≠ [] := by simp [hm₀.ne_nil]
  have hms : ∀ m ∈ [homeMarker, usersMarker], IsMarker m := by
    intro m hm
    simpa [IsMarker] using hm
  have hends : ∀ {m s}, IsMarker m → EndsName m s →
      EndsName m (replaceHomePrefixAtBoundary s (m₀ ++ n₀)) :=
    fun hm he => endsName_replaceEach hne (replaceHome_le _) (signs_replaceHome _) hm he
  have hkeep : ∀ {c : Char} {s}, (∀ m, IsMarker m → ¬ m <+: c :: s) →
      replaceHomePrefixAtBoundary (c :: s) (m₀ ++ n₀) =
        c :: replaceHomePrefixAtBoundary s (m₀ ++ n₀) := by
    intro c s hc
    refine replaceEach_cons hne (replaceHome_le _) fun h => hc m₀ hm₀ ?_
    exact (List.prefix_append m₀ n₀).trans h
  induction h with
  | nil => exact .nil
  | char c hc h ih =>
    rw [hkeep fun m hm => (hc m hm).1, hkeep fun m hm => (hc m hm).2]
    refine .char c (fun m hm => ?_) ih
    obtain ⟨hs, ht⟩ := hc m (hms m hm)
    exact ⟨not_prefix_replaceEach hne (replaceHome_le _) (signs_replaceHome _) (hms m hm) hs,
      not_prefix_replaceEach hne (replaceHome_le _) (signs_replaceHome _) (hms m hm) ht⟩
  | name m n n' hm hn hn' he he' h ih =>
    have hmem : m ∈ [homeMarker, usersMarker] := by simpa [IsMarker] using hm
    rcases replaceHome_name hm₀ hn₀ hm hn he with hs | hs <;>
      rcases replaceHome_name hm₀ hn₀ hm hn' he' with ht | ht <;> rw [hs, ht]
    · exact ih.tilde hms
    · exact .left m n' hmem hn' (hends hm he') ih
    · exact .right m n hmem hn (hends hm he) ih
    · exact .name m n n' hmem hn hn' (hends hm he) (hends hm he') ih

end run

/-- The home directory, if the process has one, is a marker and a name or occurs in neither text. -/
def HomeFits (homeDir : Option (List Char)) (s t : List Char) : Prop :=
  ∀ home ∈ homeDir, home ≠ [] →
    (∃ m n, IsMarker m ∧ (∀ c ∈ n, isMaterial c) ∧ home = m ++ n) ∨ ¬ home <:+: s ∧ ¬ home <:+: t

/-- Texts that differ in the user names after the markers only are redacted to the same text. -/
theorem redact_noninterference {u : Unicode} (hu : u.Lawful) {homeDir : Option (List Char)}
    {s t : List Char} (hs : Ascii s) (ht : Ascii t) (hhome : HomeFits homeDir s t)
    (h : SameContext IsUserName EndsName s t) :
    redactHomePaths u homeDir s = redactHomePaths u homeDir t ∧
      redactSensitive u homeDir s = redactSensitive u homeDir t := by
  have hboth : ∀ {s t}, Alike [homeMarker, usersMarker] s t → Ascii s → Ascii t →
      redactUnixHomeRun u (redactUnixHomeRun u s homeMarker) usersMarker =
        redactUnixHomeRun u (redactUnixHomeRun u t homeMarker) usersMarker := by
    intro s t h hs ht
    have hne : homeMarker ≠ [] := List.cons_ne_nil _ _
    exact (h.redact_home hu hs ht).redact_users hu (ascii_redactUnixHomeRun hne hs)
      (ascii_redactUnixHomeRun hne ht)
  have hpaths : redactHomePaths u homeDir s = redactHomePaths u homeDir t := by
    cases hd : homeDir with
    | none =>
      simp only [redactHomePaths]
      rw [hboth (alike_of_sameContext h) hs ht]
    | some home =>
      simp only [redactHomePaths]
      by_cases hnil : home = []
      · rw [if_pos (by simp [hnil]), if_pos (by simp [hnil]),
          hboth (alike_of_sameContext h) hs ht]
      · rw [if_neg (by simpa using hnil), if_neg (by simpa using hnil)]
        rcases hhome home hd hnil with ⟨m, n, hm, hn, rfl⟩ | ⟨hns, hnt⟩
        · rw [hboth (h.replaceHome hm hn) (ascii_replaceHomePrefixAtBoundary hnil hs)
            (ascii_replaceHomePrefixAtBoundary hnil ht)]
        · have hself : ∀ s, ¬ home <:+: s → replaceHomePrefixAtBoundary s home = s :=
            fun s h => replaceEach_eq_self hnil h
          rw [hself s hns, hself t hnt, hboth (alike_of_sameContext h) hs ht]
  refine ⟨hpaths, ?_⟩
  rw [redactSensitive, redactSensitive, hpaths]

def asciiUnicode : Unicode := ⟨asciiClusters, Char.isAlphanum⟩

theorem asciiUnicode_lawful : asciiUnicode.Lawful := ⟨fun _ _ => rfl, fun _ _ => rfl⟩

theorem of_markers {P : List Char → Prop} (h : ∀ m ∈ [homeMarker, usersMarker], P m) :
    ∀ m, IsMarker m → P m := by
  intro m hm
  exact h m (by simpa [IsMarker] using hm)

/-- With the home directory `/home/bob`, the texts `/home/bob/x` and `/home/eve/x`. -/
theorem redact_bob_eve :
    let home := homeMarker ++ ['b', 'o', 'b']
    let s := homeMarker ++ (['b', 'o', 'b'] ++ ['/', 'x'])
    let t := homeMarker ++ (['e', 'v', 'e'] ++ ['/', 'x'])
    redactHomePaths asciiUnicode (some home) s = redactHomePaths asciiUnicode (some home) t ∧
      redactSensitive asciiUnicode (some home) s = redactSensitive asciiUnicode (some home) t := by
  have hend : EndsName homeMarker ['/', 'x'] := by
    refine ⟨by decide, ?_⟩
    intro c hc
    rw [← Option.some.inj hc]
    decide
  have hname : ∀ n ∈ [['b', 'o', 'b'], ['e', 'v', 'e']], IsUserName n := by
    intro n hn
    refine ⟨?_, List.all_eq_true.mp ?_, ?_, ?_⟩ <;> (revert n; decide)
  refine redact_noninterference asciiUnicode_lawful (by decide) (by decide) ?_
    (.name homeMarker _ _ (Or.inl rfl) (hname _ (by simp)) (hname _ (by simp)) hend hend
      (.char '/' (of_markers (by decide)) (.char 'x' (of_markers (by decide)) .nil)))
  intro home hh _
  exact Or.inl ⟨homeMarker, ['b', 'o', 'b'], Or.inl rfl, (hname _ (by simp)).material,
    (Option.some.inj hh).symm⟩

/-- A character of a path component: neither a slash, a backslash, white space nor a quote. -/
def isComponentChar (c : Char) : Bool :=
  c != '/' && c != '\\' && c != '"' && c != '\'' && !isWhitespace c

def IsComponent (n : List Char) : Prop := n ≠ [] ∧ n.all isComponentChar

instance (n : List Char) : Decidable (IsComponent n) := inferInstanceAs (Decidable (_ ∧ _))

def EndsComponent (_ s : List Char) : Prop := s.head?.all fun c => !isComponentChar c

instance (m s : List Char) : Decidable (EndsComponent m s) :=
  inferInstanceAs (Decidable (s.head?.all _))

/-- A name is told where the next marker shares the slash after the last one (`/home/a/home/b`),
where it holds a character that ends a user name (`/home/a+b`), where it is `home` itself
(`/Users/home/x`), and where the home directory starts before the marker (`/s/home/b`). -/
theorem redact_tells_names :
    (∃ s t, Ascii s ∧ Ascii t ∧ SameContext IsComponent EndsComponent s t ∧
      s = homeMarker ++ (['a'] ++ (homeMarker ++ (['b'] ++ []))) ∧
      redactHomePaths asciiUnicode none s ≠ redactHomePaths asciiUnicode none t) ∧
    (∃ s t, Ascii s ∧ Ascii t ∧ SameContext IsComponent EndsComponent s t ∧
      s = homeMarker ++ (['a', '+', 'b'] ++ []) ∧
      redactHomePaths asciiUnicode none s ≠ redactHomePaths asciiUnicode none t) ∧
    (∃ s t, Ascii s ∧ Ascii t ∧ SameContext IsComponent EndsComponent s t ∧
      s = usersMarker ++ (['h', 'o', 'm', 'e'] ++ ['/', 'x']) ∧
      redactHomePaths asciiUnicode none s ≠ redactHomePaths asciiUnicode none t) ∧
    ∃ home s t, Ascii s ∧ Ascii t ∧ SameContext IsComponent EndsComponent s t ∧
      s = '/' :: 's' :: (homeMarker ++ (['b'] ++ [])) ∧ s = home ∧
      redactHomePaths asciiUnicode (some home) s ≠ redactHomePaths asciiUnicode (some home) t := by
  refine ⟨?_, ?_, ?_, ?_⟩
  · refine ⟨_, homeMarker ++ (['a'] ++ (homeMarker ++ (['c'] ++ []))), by decide, by decide, ?_,
      rfl, by decide +kernel⟩
    exact .name homeMarker _ _ (Or.inl rfl) (by decide) (by decide) (by decide) (by decide)
      (.name homeMarker _ _ (Or.inl rfl) (by decide) (by decide) (by decide) (by decide) .nil)
  · refine ⟨_, homeMarker ++ (['a', '+', 'c'] ++ []), by decide, by decide, ?_, rfl,
      by decide +kernel⟩
    exact .name homeMarker _ _ (Or.inl rfl) (by decide) (by decide) (by decide) (by decide) .nil
  · refine ⟨_, usersMarker ++ (['a'] ++ ['/', 'x']), by decide, by decide, ?_, rfl,
      by decide +kernel⟩
    exact .name usersMarker _ _ (Or.inr rfl) (by decide) (by decide) (by decide) (by decide)
      (.char '/' (of_markers (by decide)) (.char 'x' (of_markers (by decide)) .nil))
  · refine ⟨_, _, '/' :: 's' :: (homeMarker ++ (['c'] ++ [])), by decide, by decide, ?_, rfl, rfl,
      by decide +kernel⟩
    exact .char '/' (of_markers (by decide)) (.char 's' (of_markers (by decide))
      (.name homeMarker _ _ (Or.inl rfl) (by decide) (by decide) (by decide) (by decide) .nil))

end Travsr.Mcp
