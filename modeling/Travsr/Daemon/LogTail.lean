import Travsr.Core.Pieces
import Travsr.Daemon.LogFile
import Travsr.Lib.Runs

/-! The rotation-aware reader over the daemon log: what it prints, whatever happens to the files
between its polls. -/

namespace Travsr.Daemon.LogFile

open Core.Text LineStream SortDedup Utf8Lossy

structure LogTail where
  path : Option String
  file : Option Ino
  offset : Nat
  partialLine : List Char

def LogTail.reopenCurrent (d : Dir) (t : LogTail) : LogTail :=
  { t with path := (currentLogFile d).map Prod.fst, file := (currentLogFile d).map Prod.snd, offset := 0 }

def LogTail.new (d : Dir) : LogTail := LogTail.reopenCurrent d ⟨none, none, 0, []⟩

def LogTail.seekToEnd (d : Dir) (t : LogTail) : LogTail :=
  match t.file with
  | some ino => { t with offset := (d.bytes ino).length }
  | none => t

def LogTail.restart (len : Nat) (t : LogTail) : LogTail :=
  if len < t.offset then { t with offset := 0, partialLine := [] } else t

/-- A read that brings `buf`: the lines up to the last newline, and the fragment after it. -/
def LogTail.take (buf : List UInt8) (t : LogTail) : List (List Char) × LogTail :=
  let text := t.partialLine ++ lossy buf
  match rsplitOnce '\n' text with
  | some (complete, rest) =>
    (lines (String.ofList (complete ++ ['\n'])),
      { t with offset := t.offset + buf.length, partialLine := rest })
  | none => ([], { t with offset := t.offset + buf.length, partialLine := text })

/-- `read_new`, where the read brings at most `granted` bytes. -/
def LogTail.readNew (d : Dir) (granted : Nat) (t : LogTail) : List (List Char) × LogTail :=
  match t.file with
  | none => ([], t)
  | some ino =>
    let len := (d.bytes ino).length
    let t := t.restart len
    if len = t.offset then ([], t)
    else
      let want := min (len - t.offset) POLL_READ_CAP
      t.take (((d.bytes ino).drop t.offset).take (min granted want))

def LogTail.poll (d : Dir) (granted : Nat) (t : LogTail) : List (List Char) × LogTail :=
  if (currentLogFile d).map Prod.fst ≠ t.path then
    let carried := t.partialLine
    let r := ({ t with partialLine := [] }.reopenCurrent d).readNew d granted
    ((if (trimChars carried).isEmpty then [] else [carried]) ++ r.1, r.2)
  else t.readNew d granted

variable {len : Nat}

/-! ### What a stretch of reading prints -/

/-- What was read of a file, from where and under which name it was followed. -/
structure Stretch where
  name : String
  ino : Ino
  start : Nat
  read : List UInt8

/-- The lines and the fragment are those of the bytes, each read in pieces. -/
def Reads (bytes : List UInt8) (out : List (List Char)) (rest : List Char) : Prop :=
  ∃ ls, List.Forall₂ (InPieces lossy) (cut newline bytes).1 ls ∧ out = ls.map stripCr ∧
    InPieces lossy (cut newline bytes).2 rest

theorem Reads.nil : Reads [] [] [] := ⟨[], by simp, by simp, by simpa using InPieces.nil⟩

theorem Reads.eq_nil {out : List (List Char)} {rest : List Char} (h : Reads [] out rest) :
    out = [] ∧ rest = [] := by
  obtain ⟨ls, hls, rfl, ps, hps, rfl⟩ := h
  simp only [cut_nil, List.forall₂_nil_left_iff] at hls
  simp only [cut_nil, List.flatten_eq_nil_iff] at hps
  refine ⟨by simp [hls], ?_⟩
  rw [List.flatMap_eq_nil_iff]
  intro p hp
  rw [hps p hp, lossy_nil]

theorem Reads.append {bytes : List UInt8} {out : List (List Char)} {rest : List Char}
    (h : Reads bytes out rest) (buf : List UInt8) :
    Reads (bytes ++ buf) (out ++ (cut '\n' (rest ++ lossy buf)).1.map stripCr)
      (cut '\n' (rest ++ lossy buf)).2 := by
  obtain ⟨ls, hls, rfl, hrest⟩ := h
  obtain ⟨hmore, hopen⟩ := (hrest.append (InPieces.whole lossy buf)).cut lossy_reading
  refine ⟨ls ++ (cut '\n' (rest ++ lossy buf)).1, ?_, by simp, ?_⟩
  · rw [cut_append bytes]
    exact List.rel_append hls hmore
  · rw [cut_append bytes]
    exact hopen

theorem LogTail.take_eq (buf : List UInt8) (t : LogTail) :
    t.take buf = ((cut '\n' (t.partialLine ++ lossy buf)).1.map stripCr,
      { t with offset := t.offset + buf.length, partialLine := (cut '\n' (t.partialLine ++ lossy buf)).2 }) := by
  obtain ⟨ls, r, htext, hls, hr⟩ := exists_join '\n' (t.partialLine ++ lossy buf)
  simp only [LogTail.take, htext, cut_join hls hr]
  cases ls using List.reverseRecOn with
  | nil => simp [rsplitOnce_eq_none hr]
  | append_singleton ls l =>
    have hlast : join '\n' (ls ++ [l]) r = (join '\n' ls [] ++ l) ++ '\n' :: r := by simp [join]
    have hcomplete : join '\n' ls [] ++ l ++ ['\n'] = join '\n' (ls ++ [l]) [] := by simp [join]
    simp only [hlast, rsplitOnce_last hr, hcomplete, lines_join hls]

/-! ### Runs -/

/-- What the other processes do to the files, and the polls. -/
inductive Event where
  | write (ino : Ino) (bytes : List UInt8)
  | link (name : String) (ino : Ino)
  | unlink (name : String)
  | poll (granted : Nat)

/-- The directory, its reader and what the polls have printed. -/
structure Watched where
  dir : Dir
  tail : LogTail
  out : List (List Char)

def Watched.step (w : Watched) : Event → Watched
  | .write ino bytes => { w with dir := w.dir.write ino bytes }
  | .link name ino => { w with dir := w.dir.link name ino }
  | .unlink name => { w with dir := w.dir.unlink name }
  | .poll granted =>
    { w with
      tail := (w.tail.poll w.dir granted).2
      out := w.out ++ (w.tail.poll w.dir granted).1 }

/-- The files only grow, a new name sorts after the others, and the newest file is not removed. -/
def Orderly (w : Watched) : Event → Prop
  | .write ino bytes => w.dir.bytes ino <+: bytes
  | .link name _ => startsWith name LOG_PREFIX = true ∧ ∀ file ∈ logFiles w.dir, file.1 < name
  | .unlink name => (currentLogFile w.dir).map Prod.fst ≠ some name
  | .poll _ => True

/-- What a stretch prints once it is over: the fragment carried at a rotation is a line, unless it
is blank; a file that shrank takes it along. -/
def Stretch.Prints (s : Stretch) (rotated : Bool) (out : List (List Char)) : Prop :=
  ∃ ls rest, Reads s.read ls rest ∧
    out = ls ++ if rotated && !(trimChars rest).isEmpty then [rest] else []

/-- The polls have printed the stretches that are over, and of the one that goes on its lines. -/
structure Followed (out : List (List Char)) (t : LogTail) (past : List (Stretch × Bool))
    (now : Option Stretch) : Prop where
  printed : ∃ outs ls, out = outs.flatten ++ ls ∧
    List.Forall₂ (fun p o => Stretch.Prints p.1 p.2 o) past outs ∧
    Reads ((now.map Stretch.read).getD []) ls t.partialLine
  path : t.path = now.map Stretch.name
  file : t.file = now.map Stretch.ino
  offset : ∀ s ∈ now, t.offset = s.start + s.read.length

variable {out : List (List Char)} {t : LogTail} {past : List (Stretch × Bool)} {now : Option Stretch}
  {s : Stretch}

theorem Followed.take (h : Followed out t past (some s)) (buf : List UInt8) :
    Followed (out ++ (t.take buf).1) (t.take buf).2 past (some { s with read := s.read ++ buf }) := by
  obtain ⟨outs, ls, rfl, houts, hreads⟩ := h.printed
  have hoffset := h.offset s (by simp)
  rw [LogTail.take_eq]
  refine ⟨⟨outs, _, List.append_assoc _ _ _, houts, hreads.append buf⟩, h.path, h.file, ?_⟩
  simp only [Option.mem_def, Option.some.injEq, forall_eq', List.length_append]
  omega

theorem Followed.close (h : Followed out t past (some s)) (rotated : Bool) :
    ∃ outs, out ++ (if rotated && !(trimChars t.partialLine).isEmpty then [t.partialLine] else []) =
        outs.flatten ∧
      List.Forall₂ (fun p o => Stretch.Prints p.1 p.2 o) (past ++ [(s, rotated)]) outs := by
  obtain ⟨outs, ls, rfl, houts, hreads⟩ := h.printed
  refine ⟨outs ++ [ls ++ if rotated && !(trimChars t.partialLine).isEmpty then [t.partialLine] else []],
    by simp, ?_⟩
  apply List.rel_append houts
  exact .cons ⟨ls, t.partialLine, hreads, rfl⟩ .nil

theorem Followed.restart (h : Followed out t past (some s)) (hshort : len < t.offset) :
    Followed out (t.restart len) (past ++ [(s, false)]) (some { s with start := 0, read := [] }) := by
  obtain ⟨outs, hout, houts⟩ := h.close false
  rw [Bool.false_and, if_neg Bool.false_ne_true, List.append_nil] at hout
  rw [LogTail.restart, if_pos hshort]
  exact ⟨⟨outs, [], by simpa using hout, houts, Reads.nil⟩, h.path, h.file, by simp⟩

theorem Followed.rotate (h : Followed out t past now) (d : Dir) :
    Followed (out ++ if (trimChars t.partialLine).isEmpty then [] else [t.partialLine])
      ({ t with partialLine := [] }.reopenCurrent d) (past ++ now.toList.map fun s => (s, true))
      ((currentLogFile d).map fun file => ⟨file.1, file.2, 0, []⟩) := by
  have hopened : ∀ outs : List (List (List Char)),
      List.Forall₂ (fun p o => Stretch.Prints p.1 p.2 o) (past ++ now.toList.map fun s => (s, true)) outs →
      Followed outs.flatten ({ t with partialLine := [] }.reopenCurrent d)
        (past ++ now.toList.map fun s => (s, true))
        ((currentLogFile d).map fun file => ⟨file.1, file.2, 0, []⟩) := by
    intro outs houts
    refine ⟨⟨outs, [], by simp, houts, ?_⟩, ?_, ?_, ?_⟩
    · cases currentLogFile d <;> simpa [LogTail.reopenCurrent] using Reads.nil
    · simp [LogTail.reopenCurrent, Function.comp_def]
    · simp [LogTail.reopenCurrent, Function.comp_def]
    · intro s hs
      obtain ⟨file, -, rfl⟩ := Option.map_eq_some_iff.mp hs
      simp [LogTail.reopenCurrent]
  cases now with
  | none =>
    obtain ⟨outs, ls, rfl, houts, hreads⟩ := h.printed
    obtain ⟨rfl, hrest⟩ := hreads.eq_nil
    have hblank : trimChars [] = [] := by decide
    have := hopened outs (by simpa using houts)
    simpa [hrest, hblank] using this
  | some s =>
    obtain ⟨outs, hout, houts⟩ := h.close true
    have hline : (if (trimChars t.partialLine).isEmpty then [] else [t.partialLine]) =
        if true && !(trimChars t.partialLine).isEmpty then [t.partialLine] else [] := by
      cases (trimChars t.partialLine).isEmpty <;> rfl
    rw [hline, hout]
    exact hopened outs (by simpa using houts)

/-- One read: nothing, or more of the file from where the reader stands, after a restart where the
file shrank. -/
theorem LogTail.readNew_cases (d : Dir) (granted : Nat) (t : LogTail) :
    (t.file = none ∧ t.readNew d granted = ([], t)) ∨
      ∃ ino, t.file = some ino ∧
        (t.readNew d granted = ([], t.restart (d.bytes ino).length) ∨
          ∃ buf, buf <+: (d.bytes ino).drop (t.restart (d.bytes ino).length).offset ∧
            t.readNew d granted = (t.restart (d.bytes ino).length).take buf) := by
  cases hfile : t.file with
  | none => exact .inl ⟨rfl, by simp [LogTail.readNew, hfile]⟩
  | some ino =>
    right
    refine ⟨ino, rfl, ?_⟩
    simp only [LogTail.readNew, hfile]
    split_ifs with hend
    · exact .inl rfl
    · exact .inr ⟨_, List.take_prefix _ _, rfl⟩

/-! ### Orderly runs -/

/-- What was read stands in the file, where the stretch started. -/
def Stretch.Lies (bytes : Ino → List UInt8) (s : Stretch) : Prop :=
  ∃ before after, bytes s.ino = before ++ s.read ++ after ∧ before.length = s.start

/-- The stretches are files read without a gap, in the order of their names and so each of them
once, all but the first from its first byte on. -/
structure Faithful (d : Dir) (past : List (Stretch × Bool)) (now : Option Stretch) : Prop where
  lies : ∀ s ∈ past.map Prod.fst ++ now.toList, s.Lies d.bytes
  rotated : ∀ p ∈ past, p.2 = true
  ordered : (past.map Prod.fst ++ now.toList).Pairwise fun s s' => s.name < s'.name ∧ s'.start = 0
  current : ∀ s ∈ past.map Prod.fst ++ now.toList, ∃ file ∈ currentLogFile d, s.name ≤ file.1
  same : ∀ s ∈ now, ∀ e ∈ d.entries, e.1 = s.name → e.2 = s.ino
  first : now = none → past = []

variable {d : Dir}

theorem Stretch.Lies.offset_le (h : s.Lies d.bytes) : s.start + s.read.length ≤ (d.bytes s.ino).length := by
  obtain ⟨before, after, hbytes, hstart⟩ := h
  rw [hbytes, ← hstart]
  simp

theorem Stretch.Lies.read_more (h : s.Lies d.bytes) {buf : List UInt8}
    (hbuf : buf <+: (d.bytes s.ino).drop (s.start + s.read.length)) :
    Stretch.Lies d.bytes { s with read := s.read ++ buf } := by
  obtain ⟨before, after, hbytes, hstart⟩ := h
  have hdrop : (d.bytes s.ino).drop (s.start + s.read.length) = after := by
    rw [hbytes, ← hstart, ← List.length_append, List.drop_left]
  rw [hdrop] at hbuf
  obtain ⟨rest, rfl⟩ := hbuf
  exact ⟨before, rest, by simp [hbytes], hstart⟩

theorem Faithful.read_more (h : Faithful d past (some s)) {buf : List UInt8}
    (hbuf : buf <+: (d.bytes s.ino).drop (s.start + s.read.length)) :
    Faithful d past (some { s with read := s.read ++ buf }) := by
  have hnow := h.lies s (by simp)
  have hordered := h.ordered
  simp only [Option.toList_some, List.pairwise_append, List.pairwise_singleton, List.mem_singleton,
    forall_eq, true_and] at hordered
  refine ⟨?_, h.rotated, ?_, ?_, by simpa using h.same s, by simp⟩
  · intro x hx
    rcases List.mem_append.mp hx with hx | hx
    · exact h.lies x (List.mem_append_left _ hx)
    · rw [Option.toList_some, List.mem_singleton] at hx
      rw [hx]
      exact hnow.read_more hbuf
  · simpa [List.pairwise_append] using hordered
  · intro x hx
    rcases List.mem_append.mp hx with hx | hx
    · exact h.current x (List.mem_append_left _ hx)
    · rw [Option.toList_some, List.mem_singleton] at hx
      rw [hx]
      exact h.current s (by simp)

theorem eq_of_current {file : String × Ino} (h : currentLogFile d = some file) :
    ∀ name ino, (name, ino) ∈ d.entries → name = file.1 → ino = file.2 := by
  intro name ino he hname
  have hfile : file ∈ d.entries := (List.mem_filter.mp (mem_sortBy.mp (mem_of_current h))).1
  have heq : (name, ino) = file := List.inj_on_of_nodup_map d.nodup he hfile hname
  rw [← heq]

theorem Faithful.rotate (h : Faithful d past now)
    (hnew : (currentLogFile d).map Prod.fst ≠ now.map Stretch.name) :
    Faithful d (past ++ now.toList.map fun s => (s, true))
      ((currentLogFile d).map fun file => ⟨file.1, file.2, 0, []⟩) := by
  have hall : (past ++ now.toList.map fun s => (s, true)).map Prod.fst = past.map Prod.fst ++ now.toList := by
    simp [Function.comp_def]
  cases hcur : currentLogFile d with
  | none =>
    have hnone : past.map Prod.fst ++ now.toList = [] := by
      apply List.eq_nil_iff_forall_not_mem.mpr
      intro x hx
      obtain ⟨file, hfile, -⟩ := h.current x hx
      simp [hcur] at hfile
    have hpast : past ++ now.toList.map (fun s => (s, true)) = [] := by
      rw [List.append_eq_nil_iff] at hnone
      simp [List.map_eq_nil_iff.mp hnone.1, hnone.2]
    rw [hpast]
    exact ⟨by simp, by simp, by simp, by simp, by simp, by simp⟩
  | some file =>
    have hle : ∀ x ∈ past.map Prod.fst ++ now.toList, x.name ≤ file.1 := by
      intro x hx
      obtain ⟨file', hfile, hname⟩ := h.current x hx
      rw [hcur, Option.mem_some_iff] at hfile
      rwa [hfile]
    have hlt : ∀ x ∈ past.map Prod.fst ++ now.toList, x.name < file.1 := by
      cases now with
      | none => simp [h.first]
      | some s =>
        have hs : s.name < file.1 := by
          apply lt_of_le_of_ne (hle s (by simp))
          intro heq
          rw [hcur] at hnew
          simp [heq] at hnew
        intro x hx
        rcases List.mem_append.mp hx with hx | hx
        · have hordered := (List.pairwise_append.mp h.ordered).2.2 x hx s (by simp)
          exact hordered.1.trans hs
        · rw [Option.toList_some, List.mem_singleton] at hx
          rwa [hx]
    constructor
    · rw [hall]
      intro x hx
      rcases List.mem_append.mp hx with hx | hx
      · exact h.lies x hx
      · simp only [Option.map_some, Option.toList_some, List.mem_singleton] at hx
        exact ⟨[], d.bytes x.ino, by simp [hx], by simp [hx]⟩
    · intro p hp
      rcases List.mem_append.mp hp with hp | hp
      · exact h.rotated p hp
      · obtain ⟨x, -, rfl⟩ := List.mem_map.mp hp
        simp
    · rw [hall, List.pairwise_append]
      refine ⟨h.ordered, by simp, ?_⟩
      intro x hx y hy
      simp only [Option.map_some, Option.toList_some, List.mem_singleton] at hy
      rw [hy]
      exact ⟨hlt x hx, by simp⟩
    · rw [hall, hcur]
      intro x hx
      rcases List.mem_append.mp hx with hx | hx
      · exact ⟨file, by simp, hle x hx⟩
      · simp only [Option.map_some, Option.toList_some, List.mem_singleton] at hx
        exact ⟨file, by simp, by simp [hx]⟩
    · simpa using eq_of_current hcur
    · simp

theorem currentLogFile_unlink {name : String} (h : (currentLogFile d).map Prod.fst ≠ some name) :
    currentLogFile (d.unlink name) = currentLogFile d := by
  rw [currentLogFile, currentLogFile, logFiles_unlink]
  rw [currentLogFile] at h
  cases hfiles : logFiles d using List.reverseRecOn with
  | nil => simp
  | append_singleton files newest =>
    have hne : newest.1 ≠ name := by simpa [hfiles] using h
    simp [hne]

theorem Faithful.of_dir {d' : Dir} (h : Faithful d past now)
    (hbytes : ∀ ino, d.bytes ino <+: d'.bytes ino)
    (hcurrent : ∀ file ∈ currentLogFile d, ∃ file' ∈ currentLogFile d', file.1 ≤ file'.1)
    (hentries : ∀ e ∈ d'.entries, e ∈ d.entries ∨ ∀ file ∈ currentLogFile d, file.1 < e.1) :
    Faithful d' past now := by
  refine ⟨?_, h.rotated, h.ordered, ?_, ?_, h.first⟩
  · intro x hx
    obtain ⟨before, after, hread, hstart⟩ := h.lies x hx
    obtain ⟨more, hmore⟩ := hbytes x.ino
    exact ⟨before, after ++ more, by simp [← hmore, hread], hstart⟩
  · intro x hx
    obtain ⟨file, hfile, hname⟩ := h.current x hx
    obtain ⟨file', hfile', hle⟩ := hcurrent file hfile
    exact ⟨file', hfile', hname.trans hle⟩
  · intro x hx e he hname
    rcases hentries e he with he | hafter
    · exact h.same x hx e he hname
    · obtain ⟨file, hfile, hle⟩ := h.current x (by simp [Option.mem_def.mp hx])
      exact absurd hname (ne_of_gt (lt_of_le_of_lt hle (hafter file hfile)))

/-- What the reader may come to in a step that prints these lines: its stretches account for what it
has printed, and stay faithful where they were. -/
def Follows (d : Dir) (out : List (List Char)) (past : List (Stretch × Bool)) (now : Option Stretch)
    (r : List (List Char) × LogTail) : Prop :=
  ∃ past' now', Followed (out ++ r.1) r.2 past' now' ∧ (Faithful d past now → Faithful d past' now')

theorem Followed.readNew (h : Followed out t past now) (d : Dir) (granted : Nat) :
    Follows d out past now (t.readNew d granted) := by
  rcases t.readNew_cases d granted with ⟨hnone, hread⟩ | ⟨ino, hfile, hread⟩
  · rw [hread]
    exact ⟨past, now, by simpa using h, id⟩
  · obtain ⟨s, rfl, rfl⟩ := Option.map_eq_some_iff.mp (h.file.symm.trans hfile)
    -- after the check for a file that shrank
    obtain ⟨past', s', hino, hfollowed, hfaithful⟩ : ∃ past' s', s'.ino = s.ino ∧
        Followed out (t.restart (d.bytes s.ino).length) past' (some s') ∧
        (Faithful d past (some s) → Faithful d past' (some s')) := by
      by_cases hshort : (d.bytes s.ino).length < t.offset
      · refine ⟨_, _, ?_, h.restart hshort, ?_⟩
        · simp
        · intro hf
          have hle := (hf.lies s (by simp)).offset_le
          rw [h.offset s (by simp)] at hshort
          omega
      · rw [LogTail.restart, if_neg hshort]
        exact ⟨past, s, by simp, h, id⟩
    rcases hread with hread | ⟨buf, hbuf, hread⟩
    · rw [hread]
      exact ⟨past', some s', by simpa using hfollowed, hfaithful⟩
    · rw [hread]
      refine ⟨past', _, hfollowed.take buf, ?_⟩
      intro hf
      apply (hfaithful hf).read_more
      rwa [hino, ← hfollowed.offset s' (by simp)]

theorem Followed.poll (h : Followed out t past now) (d : Dir) (granted : Nat) :
    Follows d out past now (t.poll d granted) := by
  rw [LogTail.poll]
  split_ifs with hnew
  · obtain ⟨past', now', hfollowed, hfaithful⟩ := (h.rotate d).readNew d granted
    refine ⟨past', now', ?_, ?_⟩
    · simpa using hfollowed
    · intro hf
      apply hfaithful
      apply hf.rotate
      rwa [← h.path]
  · exact h.readNew d granted

theorem Followed.step {w : Watched} (h : Followed w.out w.tail past now) (e : Event) :
    ∃ past' now', Followed (w.step e).out (w.step e).tail past' now' ∧
      (Faithful w.dir past now → Orderly w e → Faithful (w.step e).dir past' now') := by
  cases e with
  | write ino bytes =>
    refine ⟨past, now, h, ?_⟩
    intro hf hgrows
    apply hf.of_dir
    · intro i
      by_cases hi : i = ino
      · rw [hi]
        simpa [Orderly, Watched.step, Dir.write] using hgrows
      · simp [Watched.step, Dir.write, hi]
    · intro file hfile
      exact ⟨file, by simpa [Watched.step, currentLogFile] using hfile, le_refl _⟩
    · exact fun e he => .inl he
  | link name ino =>
    refine ⟨past, now, h, ?_⟩
    intro hf hlink
    apply hf.of_dir
    · simp [Watched.step, Dir.link]
    · intro file hfile
      refine ⟨(name, ino), ?_, le_of_lt (hlink.2 file (mem_of_current hfile))⟩
      simp [Watched.step, currentLogFile, logFiles_link hlink.1 hlink.2]
    · intro e he
      rcases List.mem_cons.mp he with rfl | he
      · exact .inr fun file hfile => hlink.2 file (mem_of_current hfile)
      · exact .inl (List.mem_filter.mp he).1
  | unlink name =>
    refine ⟨past, now, h, ?_⟩
    intro hf hkept
    apply hf.of_dir
    · simp [Watched.step, Dir.unlink]
    · intro file hfile
      exact ⟨file, by rwa [Watched.step, currentLogFile_unlink hkept], le_refl _⟩
    · exact fun e he => .inl (List.mem_filter.mp he).1
  | poll granted =>
    obtain ⟨past', now', hfollowed, hfaithful⟩ := h.poll w.dir granted
    exact ⟨past', now', hfollowed, fun hf _ => hfaithful hf⟩

def Watched.start (d : Dir) (atEnd : Bool) : Watched where
  dir := d
  tail := if atEnd then (LogTail.new d).seekToEnd d else LogTail.new d
  out := []

theorem Followed.start (d : Dir) (atEnd : Bool) :
    ∃ now, Followed (Watched.start d atEnd).out (Watched.start d atEnd).tail [] now ∧ Faithful d [] now := by
  cases hcur : currentLogFile d with
  | none =>
    refine ⟨none, ?_, ⟨by simp, by simp, by simp, by simp, by simp, by simp⟩⟩
    have htail : (Watched.start d atEnd).tail = ⟨none, none, 0, []⟩ := by
      cases atEnd <;> simp [Watched.start, LogTail.new, LogTail.reopenCurrent, LogTail.seekToEnd, hcur]
    rw [htail]
    exact ⟨⟨[], [], by simp [Watched.start], .nil, Reads.nil⟩, by simp, by simp, by simp⟩
  | some file =>
    obtain ⟨before, after, hsplit, htail⟩ : ∃ before after, d.bytes file.2 = before ++ after ∧
        (Watched.start d atEnd).tail = ⟨some file.1, some file.2, before.length, []⟩ := by
      cases atEnd with
      | false =>
        exact ⟨[], d.bytes file.2, by simp, by simp [Watched.start, LogTail.new, LogTail.reopenCurrent, hcur]⟩
      | true =>
        exact ⟨d.bytes file.2, [], by simp, by
          simp [Watched.start, LogTail.new, LogTail.reopenCurrent, LogTail.seekToEnd, hcur]⟩
    refine ⟨some ⟨file.1, file.2, before.length, []⟩, ?_, ?_⟩
    · rw [htail]
      exact ⟨⟨[], [], by simp [Watched.start], .nil, Reads.nil⟩, by simp, by simp, by simp⟩
    · refine ⟨?_, by simp, by simp, ?_, by simpa using eq_of_current hcur, by simp⟩
      · intro s hs
        simp only [List.map_nil, List.nil_append, Option.toList_some, List.mem_singleton] at hs
        rw [hs]
        exact ⟨before, after, by simpa using hsplit, by simp⟩
      · intro s hs
        simp only [List.map_nil, List.nil_append, Option.toList_some, List.mem_singleton] at hs
        exact ⟨file, hcur, by simp [hs]⟩

theorem Followed.run {w : Watched} (h : Followed w.out w.tail past now) (es : List Event) :
    ∃ past' now', Followed (Runs.run Watched.step w es).out (Runs.run Watched.step w es).tail past' now' ∧
      (Faithful w.dir past now → Runs.Every Watched.step Orderly w es →
        Faithful (Runs.run Watched.step w es).dir past' now') := by
  induction es generalizing w past now with
  | nil => exact ⟨past, now, h, fun hf _ => hf⟩
  | cons e es ih =>
    obtain ⟨past₁, now₁, h₁, hf₁⟩ := h.step e
    obtain ⟨past₂, now₂, h₂, hf₂⟩ := ih h₁
    refine ⟨past₂, now₂, h₂, ?_⟩
    intro hf hevery
    obtain ⟨horderly, hrest⟩ := Runs.every_cons.mp hevery
    exact hf₂ (hf₁ hf horderly) hrest

/-- The reader follows the newest file, and has read so much of it. -/
structure OnNewest (d : Dir) (newest : String × Ino) (t : LogTail) : Prop where
  path : t.path = some newest.1
  file : t.file = some newest.2
  offset : t.offset ≤ (d.bytes newest.2).length

theorem OnNewest.readNew {file : String × Ino} (h : OnNewest d file t) :
    OnNewest d file (t.readNew d POLL_READ_CAP).2 ∧
      min (d.bytes file.2).length (t.offset + POLL_READ_CAP) ≤ (t.readNew d POLL_READ_CAP).2.offset := by
  have hsame : t.restart (d.bytes file.2).length = t := by
    rw [LogTail.restart, if_neg]
    have := h.offset
    omega
  simp only [LogTail.readNew, h.file, hsame]
  split_ifs with hend
  · refine ⟨h, ?_⟩
    dsimp only
    omega
  · have hoffset := h.offset
    rw [LogTail.take_eq]
    refine ⟨⟨h.path, h.file, ?_⟩, ?_⟩ <;> simp only [List.length_take, List.length_drop] <;> omega

/-- A poll that is granted the whole cap reads so much more, and the first one finds the newest
file. -/
theorem poll_onNewest {file : String × Ino} (hcur : currentLogFile d = some file)
    (hpath : t.path = some file.1 → OnNewest d file t) :
    OnNewest d file (t.poll d POLL_READ_CAP).2 ∧
      min (d.bytes file.2).length ((if t.path = some file.1 then t.offset else 0) + POLL_READ_CAP) ≤
        (t.poll d POLL_READ_CAP).2.offset := by
  by_cases hsame : t.path = some file.1
  · simp only [LogTail.poll, hcur, hsame, Option.map_some, ne_eq, not_true_eq_false, if_false, if_true]
    exact (hpath hsame).readNew
  · have hopen : OnNewest d file ({ t with partialLine := [] }.reopenCurrent d) := by
      refine ⟨?_, ?_, ?_⟩ <;> simp [LogTail.reopenCurrent, hcur]
    have hnew : ¬ some file.1 = t.path := fun h => hsame h.symm
    have hzero : ({ t with partialLine := [] }.reopenCurrent d).offset = 0 := by
      simp [LogTail.reopenCurrent]
    have hread := hopen.readNew
    rw [hzero] at hread
    simpa only [LogTail.poll, hcur, hsame, hnew, Option.map_some, ne_eq, not_false_eq_true, if_true, if_false]
      using hread

theorem polls_offset {file : String × Ino} (hcur : currentLogFile d = some file)
    (hpath : t.path = some file.1 → OnNewest d file t) (out : List (List Char)) (n : Nat) :
    let w := Runs.run Watched.step ⟨d, t, out⟩ (List.replicate (n + 1) (.poll POLL_READ_CAP))
    w.dir = d ∧ OnNewest d file w.tail ∧
      min (d.bytes file.2).length ((n + 1) * POLL_READ_CAP) ≤ w.tail.offset := by
  induction n with
  | zero =>
    obtain ⟨hon, hoffset⟩ := poll_onNewest hcur hpath
    refine ⟨by simp [Runs.run, Watched.step], by simpa [Runs.run, Watched.step] using hon, ?_⟩
    simp only [Runs.run, List.replicate, List.foldl, Watched.step]
    omega
  | succ n ih =>
    obtain ⟨hdir, hon, hoffset⟩ := ih
    rw [List.replicate_succ', Runs.run, List.foldl_append]
    rw [Runs.run] at hdir hon hoffset
    generalize List.foldl Watched.step ⟨d, t, out⟩ (List.replicate (n + 1) (.poll POLL_READ_CAP)) = w
      at hdir hon hoffset
    obtain ⟨hon', hoffset'⟩ := poll_onNewest (t := w.tail) hcur fun _ => hon
    rw [if_pos hon.path] at hoffset'
    simp only [List.foldl, Watched.step, hdir]
    refine ⟨by simp, hon', ?_⟩
    have hmul : (n + 1 + 1) * POLL_READ_CAP = (n + 1) * POLL_READ_CAP + POLL_READ_CAP :=
      Nat.succ_mul _ _
    omega

end Travsr.Daemon.LogFile
