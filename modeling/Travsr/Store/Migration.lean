import Travsr.Core.Pieces
import Travsr.Core.Types
import Travsr.Lib.Glob
import Travsr.Lib.Restart
import Travsr.Lib.SortDedup

/-! The schema migrations and their runner, which may be stopped anywhere and is run again at the
next start. -/

namespace Travsr.Store.Migrations

open Core Restart SortDedup

variable {σ : Type}

/-- A schema change: the version it upgrades to, and the statements of its `up`. -/
structure Migration (σ : Type) where
  version : Nat
  isTransactional : Bool
  up : List (σ → σ)

/-- A database: its schema with the data, and the version in its meta table. -/
structure Db (σ : Type) where
  schema : σ
  version : Nat

abbrev MigrationRunner (σ : Type) := List (Migration σ)

/-- `register`, which panics where the version is taken. -/
def MigrationRunner.register (runner : MigrationRunner σ) (m : Migration σ) : Option (MigrationRunner σ) :=
  if runner.any (fun other => other.version = m.version) then none else some (runner ++ [m])

def MigrationRunner.latestVersion (runner : MigrationRunner σ) : Nat :=
  (runner.map Migration.version).foldl max 0

/-- What a migration leaves that stops after so many statements, before its version is recorded: a
transaction is rolled back, by `ROLLBACK` or with the journal at the next start. -/
def Migration.stopped (m : Migration σ) (statements : Nat) (db : Db σ) : Db σ :=
  if m.isTransactional then db else { db with schema := after m.up statements db.schema }

def Migration.applied (m : Migration σ) (db : Db σ) : Db σ := ⟨finish m.up db.schema, m.version⟩

/-- The loop over the pending migrations. `stop` says which of them an error or a kill hits, and
after how many of its statements. -/
def applyPending : List (Migration σ) → Option (Nat × Nat) → Db σ → Db σ
  | [], _, db => db
  | m :: pending, none, db => applyPending pending none (m.applied db)
  | m :: _, some (0, statements), db => m.stopped statements db
  | m :: pending, some (n + 1, statements), db =>
    applyPending pending (some (n, statements)) (m.applied db)

def MigrationRunner.run (runner : MigrationRunner σ) (stop : Option (Nat × Nat)) (db : Db σ) : Db σ :=
  applyPending (sortBy Migration.version (runner.filter fun m => db.version < m.version)) stop db

/-! ### Runs that are stopped and started again -/

def pendingAt (runner : MigrationRunner σ) (version : Nat) : List (Migration σ) :=
  (sortBy Migration.version runner).filter fun m => version < m.version

/-- What the pending migrations make of a database, each run once and to its end. -/
def target (runner : MigrationRunner σ) (db : Db σ) : Db σ :=
  (pendingAt runner db.version).foldl (fun db m => m.applied db) db

variable {runner : MigrationRunner σ} {db : Db σ}

theorem run_eq (hn : (runner.map Migration.version).Nodup) (stop : Option (Nat × Nat)) (db : Db σ) :
    runner.run stop db = applyPending (pendingAt runner db.version) stop db := by
  rw [MigrationRunner.run, sortBy_filter hn, pendingAt]

theorem applyPending_none (pending : List (Migration σ)) (db : Db σ) :
    applyPending pending none db = pending.foldl (fun db m => m.applied db) db := by
  induction pending generalizing db with
  | nil => simp [applyPending]
  | cons m pending ih => rw [applyPending, ih, List.foldl_cons]

theorem filter_ascending {m : Migration σ} {pending : List (Migration σ)}
    (h : (m :: pending).Pairwise fun a b => a.version < b.version) :
    (m :: pending).filter (fun x => m.version < x.version) = pending := by
  rw [List.filter_cons_of_neg (by simp), List.filter_eq_self]
  intro x hx
  simpa using (List.pairwise_cons.mp h).1 x hx

theorem ascending_pendingAt (hn : (runner.map Migration.version).Nodup) (version : Nat) :
    (pendingAt runner version).Pairwise fun a b => a.version < b.version := by
  have hsorted := @sorted_sortBy _ _ _ Migration.version runner
  have hnodup : ((sortBy Migration.version runner).map Migration.version).Nodup :=
    ((perm_sortBy runner).map Migration.version).nodup_iff.mpr hn
  have hlt : (sortBy Migration.version runner).Pairwise fun a b => a.version < b.version := by
    have hne := List.pairwise_map.mp hnodup
    apply (hsorted.and hne).imp
    intro a b h
    exact lt_of_le_of_ne h.1 h.2
  exact hlt.sublist List.filter_sublist

theorem pendingAt_next (hn : (runner.map Migration.version).Nodup) {version : Nat} {m : Migration σ}
    {pending : List (Migration σ)} (h : pendingAt runner version = m :: pending) :
    pendingAt runner m.version = pending := by
  have hasc := ascending_pendingAt hn version
  have hm : m ∈ pendingAt runner version := by simp [h]
  have hlt : version < m.version := by simpa using (List.mem_filter.mp hm).2
  have hcut : pendingAt runner m.version =
      (pendingAt runner version).filter fun x => m.version < x.version := by
    rw [pendingAt, pendingAt, List.filter_filter]
    apply List.filter_congr
    intro x _
    by_cases hx : m.version < x.version
    · have : version < x.version := hlt.trans hx
      simp [hx, this]
    · simp [hx]
  rw [h] at hasc
  rw [hcut, h, filter_ascending hasc]

theorem target_applyPending (hn : (runner.map Migration.version).Nodup)
    (hres : ∀ m ∈ runner, m.isTransactional = false → Resumable m.up) (stop : Option (Nat × Nat))
    {pending : List (Migration σ)} (h : pendingAt runner db.version = pending) :
    target runner (applyPending pending stop db) = target runner db := by
  induction pending generalizing db stop with
  | nil => simp [applyPending]
  | cons m pending ih =>
    have hnext : pendingAt runner (m.applied db).version = pending := pendingAt_next hn h
    have hstep : target runner (m.applied db) = target runner db := by
      rw [target, target, h, hnext, List.foldl_cons]
    cases stop with
    | none => rw [applyPending, ih none hnext, hstep]
    | some stop =>
      obtain ⟨n, statements⟩ := stop
      cases n with
      | succ n => rw [applyPending, ih (some (n, statements)) hnext, hstep]
      | zero =>
        rw [applyPending, Migration.stopped]
        split_ifs with htrans
        · simp
        · have hm : m ∈ runner := by
            have hmem : m ∈ pendingAt runner db.version := by simp [h]
            exact mem_sortBy.mp (List.mem_filter.mp hmem).1
          have hsame : finish m.up (after m.up statements db.schema) = finish m.up db.schema :=
            hres m hm (by simpa using htrans) statements db.schema
          simp only [target, h, List.foldl_cons, Migration.applied, hsame]

theorem le_foldl_max (versions : List Nat) (start : Nat) :
    start ≤ versions.foldl max start ∧ ∀ v ∈ versions, v ≤ versions.foldl max start := by
  induction versions generalizing start with
  | nil => simp
  | cons v versions ih =>
    obtain ⟨hstart, hall⟩ := ih (max start v)
    rw [List.foldl_cons]
    refine ⟨(le_max_left start v).trans hstart, ?_⟩
    simpa using ⟨(le_max_right start v).trans hstart, hall⟩

theorem foldl_max_le {versions : List Nat} {start bound : Nat} (hstart : start ≤ bound)
    (h : ∀ v ∈ versions, v ≤ bound) : versions.foldl max start ≤ bound := by
  induction versions generalizing start with
  | nil => simpa using hstart
  | cons v versions ih =>
    rw [List.forall_mem_cons] at h
    exact ih (max_le hstart h.1) h.2

theorem version_le_latest {m : Migration σ} (hm : m ∈ runner) : m.version ≤ runner.latestVersion :=
  (le_foldl_max _ 0).2 m.version (List.mem_map_of_mem hm)

theorem pendingAt_target (hn : (runner.map Migration.version).Nodup) {pending : List (Migration σ)}
    (h : pendingAt runner db.version = pending) : pendingAt runner (target runner db).version = [] := by
  rw [target, h]
  induction pending generalizing db with
  | nil => exact h
  | cons m pending ih =>
    have hnext : pendingAt runner (m.applied db).version = pending := pendingAt_next hn h
    exact ih hnext

theorem run_none_after_stops (hn : (runner.map Migration.version).Nodup)
    (hres : ∀ m ∈ runner, m.isTransactional = false → Resumable m.up) (stops : List (Nat × Nat))
    (db : Db σ) :
    runner.run none (stops.foldl (fun db stop => runner.run (some stop) db) db) = target runner db := by
  induction stops generalizing db with
  | nil => rw [List.foldl_nil, run_eq hn, applyPending_none, target]
  | cons stop stops ih =>
    rw [List.foldl_cons, ih, run_eq hn]
    exact target_applyPending hn hres (some stop) (by simp)

theorem version_le_foldl {pending : List (Migration σ)}
    (hasc : pending.Pairwise fun a b => a.version < b.version)
    (habove : ∀ m ∈ pending, db.version < m.version) (hrunner : pending ⊆ runner) :
    let last := pending.foldl (fun db m => m.applied db) db
    db.version ≤ last.version ∧ last.version ≤ max db.version runner.latestVersion := by
  induction pending generalizing db with
  | nil => simp
  | cons m pending ih =>
    obtain ⟨hm, hasc⟩ := List.pairwise_cons.mp hasc
    obtain ⟨hmem, hrunner⟩ := List.cons_subset.mp hrunner
    have hlt : db.version < m.version := habove m (by simp)
    have hlatest := version_le_latest hmem
    obtain ⟨hlow, hhigh⟩ := @ih (m.applied db) hasc hm hrunner
    simp only [Migration.applied, List.foldl_cons] at hlow hhigh ⊢
    omega

theorem version_target (hn : (runner.map Migration.version).Nodup) (db : Db σ) :
    (target runner db).version = max db.version runner.latestVersion := by
  have hpending : pendingAt runner db.version ⊆ runner := by
    intro m hm
    exact mem_sortBy.mp (List.mem_filter.mp hm).1
  have habove : ∀ m ∈ pendingAt runner db.version, db.version < m.version := by
    intro m hm
    simpa using (List.mem_filter.mp hm).2
  obtain ⟨hlow, hhigh⟩ := version_le_foldl (ascending_pendingAt hn db.version) habove hpending
  have hnone := @pendingAt_target _ runner db hn _ rfl
  have hall : ∀ v ∈ runner.map Migration.version, v ≤ (target runner db).version := by
    intro v hv
    obtain ⟨m, hm, rfl⟩ := List.mem_map.mp hv
    by_contra hlate
    have hleft : m ∈ pendingAt runner (target runner db).version := by
      refine List.mem_filter.mpr ⟨mem_sortBy.mpr hm, ?_⟩
      simpa using hlate
    rw [hnone] at hleft
    simp at hleft
  apply le_antisymm
  · exact hhigh
  · apply max_le
    · exact hlow
    · exact foldl_max_le (Nat.zero_le _) hall

theorem register_nodup {runner' : MigrationRunner σ} {m : Migration σ}
    (hn : (runner.map Migration.version).Nodup) (h : runner.register m = some runner') :
    (runner'.map Migration.version).Nodup := by
  rw [MigrationRunner.register] at h
  split_ifs at h with htaken
  simp only [Option.some.injEq] at h
  rw [← h, List.map_append, List.nodup_append]
  refine ⟨hn, by simp, ?_⟩
  simpa using htaken

/-- However often the migrations are stopped, and wherever, the next whole run leaves what one
undisturbed run would have left: every pending migration in version order, once, and the latest
version recorded. -/
theorem run_after_stops (hn : (runner.map Migration.version).Nodup)
    (hres : ∀ m ∈ runner, m.isTransactional = false → Resumable m.up) (stops : List (Nat × Nat))
    (db : Db σ) :
    let last := runner.run none (stops.foldl (fun db stop => runner.run (some stop) db) db)
    last = (pendingAt runner db.version).foldl (fun db m => m.applied db) db ∧
      last.version = max db.version runner.latestVersion := by
  have hlast := run_none_after_stops hn hres stops db
  dsimp only
  rw [hlast, version_target hn]
  simp [target]

/-! ### The migration without a transaction -/

/-- The pattern of `scip:*:local [0-9]*`, with what has to follow the digit. -/
def localPattern (rest : List (Glob.Item Char)) : List (Glob.Item Char) :=
  Glob.literal "scip:".toList ++ .star :: (Glob.literal ":local ".toList ++ .one Char.isDigit :: .star :: rest)

/-- `G3_LOCAL_FILTER`. -/
def g3LocalFilter (signature : List Char) : Bool :=
  Glob.Matches (localPattern []) signature &&
    !Glob.Matches (localPattern [.one fun c => !c.isDigit, .star]) signature

/-- What the migration reads and writes: the columns of `nodes`, the tables and indexes, and the
rows. -/
structure Graph where
  columns : List String
  objects : List String
  nodes : List (Nat × List Char)
  edges : List (Nat × Nat)

def isLocal (g : Graph) (id : Nat) : Bool := g.nodes.any fun n => n.1 = id && g3LocalFilter n.2

/-- The statements of the migration; those that change no row are the checkpoint and the `VACUUM`. -/
inductive Statement where
  | addColumn (column : String)
  | createIfNotExists (object : String)
  | deleteLocalEdges
  | deleteLocalNodes
  | pragma

def Statement.exec : Statement → Graph → Graph
  | addColumn column, g =>
    if g.columns.any (· = column) then g else { g with columns := g.columns ++ [column] }
  | createIfNotExists object, g =>
    if g.objects.any (· = object) then g else { g with objects := g.objects ++ [object] }
  | deleteLocalEdges, g => { g with edges := g.edges.filter fun e => !(isLocal g e.1 || isLocal g e.2) }
  | deleteLocalNodes, g => { g with nodes := g.nodes.filter fun n => !g3LocalFilter n.2 }
  | pragma, g => g

/-- `V13PhaseBUnification`. -/
def v13PhaseBUnification : Migration Graph where
  version := 13
  isTransactional := false
  up := [.addColumn "end_line", .createIfNotExists "symbol_aliases",
    .createIfNotExists "idx_symbol_aliases_node", .createIfNotExists "edge_sites",
    .createIfNotExists "idx_nodes_corpus_path", .deleteLocalEdges, .deleteLocalNodes, .pragma,
    .pragma].map Statement.exec

/-! ### The filter of anonymous locals -/

def scipPrefix : List Char := "scip:".toList

def localMark : List Char := ":local ".toList

theorem matches_localPattern {rest : List (Glob.Item Char)} {sig : List Char} :
    Glob.Matches (localPattern rest) sig = true ↔ ∃ path d b,
      sig = scipPrefix ++ (path ++ (localMark ++ d :: b)) ∧ d.isDigit = true ∧
        Glob.Matches (.star :: rest) b = true := by
  rw [localPattern, Glob.matches_literal]
  constructor
  · intro h
    obtain ⟨t, rfl, ht⟩ := h
    obtain ⟨path, u, rfl, hu⟩ := Glob.matches_star.mp ht
    obtain ⟨v, rfl, hv⟩ := Glob.matches_literal.mp hu
    obtain ⟨d, b, rfl, hd, hb⟩ := Glob.matches_one.mp hv
    exact ⟨path, d, b, rfl, hd, hb⟩
  · intro h
    obtain ⟨path, d, b, rfl, hd, hb⟩ := h
    exact ⟨_, rfl, Glob.matches_star.mpr ⟨path, _, rfl,
      Glob.matches_literal.mpr ⟨_, rfl, Glob.matches_one.mpr ⟨d, b, rfl, hd, hb⟩⟩⟩⟩

theorem matches_star_nil (b : List Char) : Glob.Matches [.star] b = true :=
  Glob.matches_star.mpr ⟨b, [], by simp⟩

theorem matches_nonDigit {b : List Char} :
    Glob.Matches [.star, .one fun c => !c.isDigit, .star] b = true ↔ ∃ c ∈ b, c.isDigit = false := by
  rw [Glob.matches_star]
  constructor
  · intro h
    obtain ⟨a, t, rfl, ht⟩ := h
    obtain ⟨c, u, rfl, hc, -⟩ := Glob.matches_one.mp ht
    exact ⟨c, by simp, by simpa using hc⟩
  · intro h
    obtain ⟨c, hc, hdigit⟩ := h
    obtain ⟨a, u, rfl⟩ := List.append_of_mem hc
    exact ⟨a, c :: u, rfl, Glob.matches_one.mpr ⟨c, u, rfl, by simp [hdigit], matches_star_nil u⟩⟩

theorem mark_inside {x b n : List Char} {d : Char} (hd : d.isDigit = true)
    (h : localMark ++ d :: b = x ++ (localMark ++ n)) (hx : x ≠ []) : localMark ++ [d] <+: x := by
  have hcolon : d ≠ ':' := by
    intro heq
    rw [heq] at hd
    simp at hd
  have hmark : localMark = [':', 'l', 'o', 'c', 'a', 'l', ' '] := by decide
  rw [hmark] at h ⊢
  rcases x with _ | ⟨c0, _ | ⟨c1, _ | ⟨c2, _ | ⟨c3, _ | ⟨c4, _ | ⟨c5, _ | ⟨c6, _ | ⟨c7, x⟩⟩⟩⟩⟩⟩⟩⟩
  · exact absurd rfl hx
  all_goals simp at h
  · exact absurd h.2.2.2.2.2.2.2.1 hcolon
  · obtain ⟨rfl, rfl, rfl, rfl, rfl, rfl, rfl, rfl, -⟩ := h
    exact ⟨x, by simp⟩

theorem g3LocalFilter_iff {sig : List Char} : g3LocalFilter sig = true ↔ ∃ path n,
    sig = scipPrefix ++ (path ++ (localMark ++ n)) ∧ n ≠ [] ∧ (∀ c ∈ n, c.isDigit = true) ∧
      ∀ d, d.isDigit = true → ¬ localMark ++ [d] <:+: path := by
  have hmarkColon : ':' ∈ localMark := by decide
  rw [g3LocalFilter, Bool.and_eq_true, Bool.not_eq_true', ← Bool.not_eq_true, matches_localPattern,
    matches_localPattern]
  simp only [matches_star_nil, matches_nonDigit, and_true]
  constructor
  · intro h
    obtain ⟨⟨path, d, b, rfl, hd⟩, honly⟩ := h
    have hb : ∀ c ∈ b, c.isDigit = true := by
      intro c hc
      by_contra hdigit
      exact honly ⟨path, d, b, rfl, hd, c, hc, by simpa using hdigit⟩
    refine ⟨path, d :: b, rfl, by simp, by simpa [hd] using hb, ?_⟩
    intro d' hd' hinfix
    obtain ⟨p, q, rfl⟩ := hinfix
    apply honly
    exact ⟨p, d', q ++ (localMark ++ d :: b), by simp, hd', ':', by simp [hmarkColon], by decide⟩
  · intro h
    obtain ⟨path, n, rfl, hne, hn, hfree⟩ := h
    obtain ⟨d, b, rfl⟩ := List.exists_cons_of_ne_nil hne
    refine ⟨⟨path, d, b, rfl, hn d (by simp)⟩, ?_⟩
    intro hother
    obtain ⟨path', d', b', heq, hd', c, hc, hdigit⟩ := hother
    have heq := List.append_cancel_left heq
    rcases List.append_eq_append_iff.mp heq with ⟨x, rfl, hx⟩ | ⟨x, rfl, hx⟩
    · by_cases hnil : x = []
      · have hsame : d :: b = d' :: b' := by simpa [hnil] using hx
        have := hn c (by simp [hsame, hc])
        simp [hdigit] at this
      · obtain ⟨y, rfl⟩ := mark_inside (hn d (by simp)) hx hnil
        have hb : b = y ++ (localMark ++ d' :: b') := by simpa using hx
        have hcolon : ':' ∈ b := by simp [hb, hmarkColon]
        have := hn ':' (List.mem_cons_of_mem d hcolon)
        simp at this
    · by_cases hnil : x = []
      · have hsame : d' :: b' = d :: b := by simpa [hnil] using hx
        have := hn c (by simp [← hsame, hc])
        simp [hdigit] at this
      · have hinside := mark_inside hd' hx hnil
        exact hfree d' hd' (hinside.isInfix.trans (List.suffix_append _ _).isInfix)

theorem space_not_digit {n : List Char} (hn : ∀ c ∈ n, c.isDigit = true) : ' ' ∉ n := by
  intro hmem
  have := hn ' ' hmem
  simp at this

/-- The text after the last `local ` of a number with a mark before it is the number. -/
theorem afterLast_local {n : List Char} (hn : ∀ c ∈ n, c.isDigit = true) (before : List Char) :
    Text.afterLast "local ".toList (before ++ ("local ".toList ++ n)) = some n := by
  have hlocal : "local ".toList = ['l', 'o', 'c', 'a', 'l', ' '] := by decide
  have hspace := space_not_digit hn
  rw [hlocal]
  have hnone : ∀ s, ' ' ∉ s → Text.afterLast ['l', 'o', 'c', 'a', 'l', ' '] s = none := by
    intro s hs
    induction s with
    | nil => simp [Text.afterLast]
    | cons c s ih =>
      have hrest : ' ' ∉ s := fun h => hs (List.mem_cons_of_mem c h)
      have hpre : ¬ ['l', 'o', 'c', 'a', 'l', ' '] <+: c :: s := fun h => hs (h.subset (by simp))
      rw [Text.afterLast, ih hrest]
      simpa [List.isPrefixOf_iff_prefix] using hpre
  induction before with
  | nil => simp [Text.afterLast, hnone n hspace]
  | cons c before ih => rw [List.cons_append, Text.afterLast, ih]

theorem isScipAnonymousLocal_of_g3 {sig : List Char} (h : g3LocalFilter sig = true) :
    Noise.isScipAnonymousLocal (String.ofList sig) = true := by
  obtain ⟨path, n, rfl, hne, hn, -⟩ := g3LocalFilter_iff.mp h
  have hsplit : scipPrefix ++ (path ++ (localMark ++ n)) =
      (scipPrefix ++ path ++ [':']) ++ ("local ".toList ++ n) := by
    have hmark : localMark = ':' :: "local ".toList := by decide
    simp [hmark]
  have hlocal : "local ".toList = ['l', 'o', 'c', 'a', 'l', ' '] := by decide
  have hafter := afterLast_local hn (scipPrefix ++ path ++ [':'])
  rw [← hsplit, hlocal] at hafter
  rw [Noise.isScipAnonymousLocal, hlocal, String.toList_ofList, hafter]
  simpa [hne] using hn

/-- The filter takes the signatures of anonymous locals, and of those all whose path has no mark with
a digit in it. -/
theorem g3LocalFilter_deletes (sig : List Char) :
    (g3LocalFilter sig = true ↔ ∃ path n,
      sig = scipPrefix ++ (path ++ (localMark ++ n)) ∧ n ≠ [] ∧ (∀ c ∈ n, c.isDigit = true) ∧
        ∀ d, d.isDigit = true → ¬ localMark ++ [d] <:+: path) ∧
      (g3LocalFilter sig = true → Noise.isScipAnonymousLocal (String.ofList sig) = true) :=
  ⟨g3LocalFilter_iff, isScipAnonymousLocal_of_g3⟩

/-! ### The migration without a transaction can be stopped -/

def Statement.Done : Statement → Graph → Prop
  | addColumn column, g => column ∈ g.columns
  | createIfNotExists object, g => object ∈ g.objects
  | deleteLocalEdges, g => ∀ e ∈ g.edges, isLocal g e.1 = false ∧ isLocal g e.2 = false
  | deleteLocalNodes, g => ∀ n ∈ g.nodes, g3LocalFilter n.2 = false
  | pragma, _ => True

/-- Nothing is lost but rows, and no row comes. -/
structure Carries (g g' : Graph) : Prop where
  columns : g.columns ⊆ g'.columns
  objects : g.objects ⊆ g'.objects
  nodes : g'.nodes ⊆ g.nodes
  edges : g'.edges ⊆ g.edges

theorem Carries.refl (g : Graph) : Carries g g :=
  ⟨List.Subset.refl _, List.Subset.refl _, List.Subset.refl _, List.Subset.refl _⟩

theorem Carries.isLocal {g g' : Graph} (h : Carries g g') {id : Nat} (hid : isLocal g id = false) :
    isLocal g' id = false := by
  rw [Migrations.isLocal, List.any_eq_false] at hid ⊢
  exact fun n hn => hid n (h.nodes hn)

theorem Statement.carries (t : Statement) (g : Graph) : Carries g (t.exec g) := by
  cases t with
  | addColumn column =>
    rw [exec]
    split_ifs
    · exact Carries.refl g
    · constructor <;> simp
  | createIfNotExists object =>
    rw [exec]
    split_ifs
    · exact Carries.refl g
    · constructor <;> simp
  | deleteLocalEdges => constructor <;> simp [exec]
  | deleteLocalNodes => constructor <;> simp [exec]
  | pragma => exact Carries.refl g

theorem Statement.Done.carry {t : Statement} {g g' : Graph} (h : t.Done g) (hc : Carries g g') :
    t.Done g' := by
  cases t with
  | addColumn column => exact hc.columns h
  | createIfNotExists object => exact hc.objects h
  | deleteLocalEdges =>
    intro e he
    obtain ⟨hsrc, hdst⟩ := h e (hc.edges he)
    exact ⟨hc.isLocal hsrc, hc.isLocal hdst⟩
  | deleteLocalNodes => exact fun n hn => h n (hc.nodes hn)
  | pragma => trivial

theorem Statement.done_exec (t : Statement) (g : Graph) : t.Done (t.exec g) := by
  cases t with
  | addColumn column =>
    rw [exec]
    split_ifs with h
    · simpa [Done] using h
    · simp [Done]
  | createIfNotExists object =>
    rw [exec]
    split_ifs with h
    · simpa [Done] using h
    · simp [Done]
  | deleteLocalEdges =>
    intro e he
    have := (List.mem_filter.mp he).2
    simpa [exec, isLocal] using this
  | deleteLocalNodes =>
    intro n hn
    have := (List.mem_filter.mp hn).2
    simpa using this
  | pragma => trivial

theorem Statement.Done.exec_eq {t : Statement} {g : Graph} (h : t.Done g) : t.exec g = g := by
  cases t with
  | addColumn column => rw [exec, if_pos (by simpa [Done] using h)]
  | createIfNotExists object => rw [exec, if_pos (by simpa [Done] using h)]
  | deleteLocalEdges =>
    have : g.edges.filter (fun e => !(isLocal g e.1 || isLocal g e.2)) = g.edges := by
      rw [List.filter_eq_self]
      intro e he
      simp [h e he]
    simp only [exec, this]
  | deleteLocalNodes =>
    have : g.nodes.filter (fun n => !g3LocalFilter n.2) = g.nodes := by
      rw [List.filter_eq_self]
      intro n hn
      simp [h n hn]
    simp only [exec, this]
  | pragma => simp [exec]

theorem resumable_statements (ts : List Statement) : Resumable (ts.map Statement.exec) := by
  have hguarded : Guarded (ts.map fun t => (t.exec, t.Done)) := by
    constructor <;> simp only [List.forall_mem_map]
    · exact fun t _ g => t.done_exec g
    · exact fun t _ g h => h.exec_eq
    · exact fun t _ t' _ g h => h.carry (t'.carries g)
  simpa [Function.comp_def] using hguarded.resumable

/-- A migration that was broken off twice, at version 12, and then run. -/
theorem run_after_stops_v13 : let db : Db Graph := ⟨⟨["id"], [], [(7, "scip:a.go:local 3".toList)], [(7, 8)]⟩, 12⟩
    let runner : MigrationRunner Graph := [v13PhaseBUnification]
    let last := runner.run none ([(0, 1), (0, 6)].foldl (fun db stop => runner.run (some stop) db) db)
    last = (pendingAt runner db.version).foldl (fun db m => m.applied db) db ∧
      last.version = max db.version runner.latestVersion := by
  apply run_after_stops
  · simp
  · intro m hm _
    rw [List.mem_singleton.mp hm]
    exact resumable_statements _

end Travsr.Store.Migrations
