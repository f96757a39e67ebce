import Mathlib.Algebra.BigOperators.Group.List.Basic
import Mathlib.Data.String.Basic
import Travsr.Core.Text
import Travsr.Lib.LineStream
import Travsr.Lib.SortDedup
import Travsr.Lib.Utf8Lossy

/-! The daemon's log directory: its rotated files, the sweep that caps them, and the tail read from
their ends. -/

namespace Travsr.Daemon.LogFile

open Core.Text LineStream SortDedup Utf8Lossy

def LOG_PREFIX : String := "daemon.log"

def MAX_LOG_FILES : Nat := 7

def LOG_BUDGET_BYTES : Nat := 50 * 1024 * 1024

def POLL_READ_CAP : Nat := 256 * 1024

def BACKFILL_CHUNK : Nat := 8 * 1024

def newline : UInt8 := 10

abbrev Ino := Nat

/-- A directory, with the bytes of every file that a name or an open descriptor leads to. -/
structure Dir where
  entries : List (String × Ino)
  bytes : Ino → List UInt8
  nodup : (entries.map Prod.fst).Nodup

variable {d : Dir}

/-- `log_files`: oldest first, for the names end in ISO dates. -/
def logFiles (d : Dir) : List (String × Ino) :=
  sortBy Prod.fst (d.entries.filter fun e => startsWith e.1 LOG_PREFIX)

def currentLogFile (d : Dir) : Option (String × Ino) := (logFiles d).getLast?

/-! ### The tail of a file -/

/-- The bytes of one chunk, from its end: where the wanted line starts, or how many lines were
seen. -/
def scanChunk (bytes : List UInt8) (wanted pos : Nat) : Nat → Nat → Nat ⊕ Nat
  | 0, seen => .inr seen
  | i + 1, seen =>
    if bytes[pos + i]? = some newline then
      -- the trailing newline of the final line does not begin one
      if pos + i + 1 = bytes.length then scanChunk bytes wanted pos i seen
      else if seen + 1 = wanted then .inl (pos + i + 1)
      else scanChunk bytes wanted pos i (seen + 1)
    else scanChunk bytes wanted pos i seen

/-- The chunks before `pos`, the last of them first. -/
def scanBack (bytes : List UInt8) (wanted pos seen : Nat) : Nat :=
  if _ : 0 < pos then
    match scanChunk bytes wanted (pos - min BACKFILL_CHUNK pos) (min BACKFILL_CHUNK pos) seen with
    | .inl start => start
    | .inr seen => scanBack bytes wanted (pos - min BACKFILL_CHUNK pos) seen
  else 0
termination_by pos
decreasing_by simp only [BACKFILL_CHUNK]; omega

def lineStartFromEnd (bytes : List UInt8) (wanted : Nat) : Nat :=
  scanBack bytes wanted bytes.length 0

def appendFileTail (bytes : List UInt8) (wanted : Nat) (out : List Char) : List Char :=
  if bytes = [] then out
  else
    let start := if wanted = 0 then 0 else lineStartFromEnd bytes wanted
    let out := out ++ lossy ((bytes.drop start).take LOG_BUDGET_BYTES)
    if out ≠ [] ∧ out.getLast? ≠ some '\n' then out ++ ['\n'] else out

/-- The loop over the files, newest first: each supplies what the newer ones could not. -/
def backfillChunks (bytes : Ino → List UInt8) : List (String × Ino) → Nat → List (List Char)
  | [], _ => []
  | file :: older, needed =>
    if needed = 0 then []
    else
      let text := appendFileTail (bytes file.2) needed []
      text :: backfillChunks bytes older (needed - (lines (String.ofList text)).length)

/-- `LogTail::backfill`. -/
def backfill (d : Dir) (wanted : Nat) : List Char :=
  if wanted = 0 then (logFiles d).foldl (fun all file => appendFileTail (d.bytes file.2) 0 all) []
  else (backfillChunks d.bytes (logFiles d).reverse wanted).reverse.flatten

/-! ### Where the tail starts -/

variable {bytes : List UInt8} {wanted pos seen : Nat}

theorem scanChunk_add (i j seen : Nat) : scanChunk bytes wanted pos (i + j) seen =
    (scanChunk bytes wanted (pos + i) j seen).elim .inl (scanChunk bytes wanted pos i) := by
  induction j generalizing seen with
  | zero => simp [scanChunk]
  | succ j ih =>
    have hpos : pos + (i + j) = pos + i + j := by omega
    rw [← Nat.add_assoc i j 1]
    simp only [scanChunk, hpos]
    split_ifs with _ _ _
    · exact ih seen
    · simp
    · exact ih (seen + 1)
    · exact ih seen

theorem scanBack_eq (bytes : List UInt8) (wanted pos seen : Nat) :
    scanBack bytes wanted pos seen = (scanChunk bytes wanted 0 pos seen).elim id fun _ => 0 := by
  fun_induction scanBack bytes wanted pos seen with
  | case1 pos seen hpos start hscan =>
    have hadd := @scanChunk_add bytes wanted 0
      (pos - min BACKFILL_CHUNK pos) (min BACKFILL_CHUNK pos) seen
    rw [Nat.sub_add_cancel (Nat.min_le_right _ _), Nat.zero_add, hscan] at hadd
    simp [hadd]
  | case2 pos seen hpos seen' hscan ih =>
    have hadd := @scanChunk_add bytes wanted 0
      (pos - min BACKFILL_CHUNK pos) (min BACKFILL_CHUNK pos) seen
    rw [Nat.sub_add_cancel (Nat.min_le_right _ _), Nat.zero_add, hscan] at hadd
    rw [ih, hadd]
    simp
  | case3 pos seen hpos =>
    obtain rfl : pos = 0 := by omega
    simp [scanChunk]

theorem scanChunk_clean {before line after : List UInt8} (h : newline ∉ line) (seen : Nat) :
    scanChunk (before ++ line ++ after) wanted 0 (before.length + line.length) seen =
      scanChunk (before ++ line ++ after) wanted 0 before.length seen := by
  induction line using List.reverseRecOn generalizing after with
  | nil => simp
  | append_singleton line b ih =>
    have hb : b ≠ newline := by
      intro heq
      exact h (by simp [heq])
    have hline : newline ∉ line := fun hmem => h (by simp [hmem])
    have hat : (before ++ (line ++ [b]) ++ after)[0 + (before.length + line.length)]? = some b := by
      simp
    have hrest := @ih (b :: after) hline
    have hsame : before ++ line ++ b :: after = before ++ (line ++ [b]) ++ after := by simp
    rw [List.length_append, List.length_singleton, ← Nat.add_assoc, scanChunk, hat, if_neg (by simpa)]
    rwa [hsame] at hrest

theorem scanChunk_lines {ls : List (List UInt8)} {after : List UInt8} (hls : ∀ l ∈ ls, newline ∉ l)
    (hafter : after ≠ []) (hseen : seen < wanted) :
    scanChunk (join newline ls [] ++ after) wanted 0 (join newline ls []).length seen =
      if ls.length < wanted - seen then .inr (seen + ls.length)
      else .inl (join newline (ls.take (ls.length + 1 - (wanted - seen))) []).length := by
  induction ls using List.reverseRecOn generalizing seen after with
  | nil =>
    have : 0 < wanted - seen := by omega
    simp [scanChunk, this]
  | append_singleton ls l ih =>
    have hl : newline ∉ l := hls l (by simp)
    have hrest : ∀ k ∈ ls, newline ∉ k := fun k hk => hls k (by simp [hk])
    have hjoin : join newline (ls ++ [l]) [] = join newline ls [] ++ l ++ [newline] := by
      simp [join]
    have hat : (join newline ls [] ++ l ++ [newline] ++ after)[
        0 + ((join newline ls []).length + l.length)]? = some newline := by
      simp
    have hpos : 0 < after.length := List.length_pos_of_ne_nil hafter
    rw [hjoin, List.length_append, List.length_append, List.length_singleton, scanChunk, if_pos hat,
      if_neg (by simp only [List.length_append, List.length_singleton]; omega)]
    have hsame : join newline ls [] ++ l ++ [newline] ++ after =
        join newline ls [] ++ l ++ newline :: after := by simp
    by_cases hlast : seen + 1 = wanted
    · have hone : wanted - seen = 1 := by omega
      simp [hlast, hone, join]
      omega
    · rw [if_neg hlast, hsame, scanChunk_clean hl, List.append_assoc,
        ih hrest (by simp) (by omega)]
      by_cases hlen : ls.length < wanted - (seen + 1)
      · have : (ls ++ [l]).length < wanted - seen := by simp; omega
        simp only [hlen, this, if_true]
        simp
        omega
      · have hnot : ¬ (ls ++ [l]).length < wanted - seen := by simp; omega
        have hk : (ls ++ [l]).length + 1 - (wanted - seen) = ls.length + 1 - (wanted - (seen + 1)) := by
          simp
          omega
        have hle : ls.length + 1 - (wanted - (seen + 1)) ≤ ls.length := by omega
        rw [if_neg hlen, if_neg hnot, hk, List.take_append_of_le_length hle]

theorem lineStartFromEnd_join {ls : List (List UInt8)} {r : List UInt8}
    (hls : ∀ l ∈ ls, newline ∉ l) (hr : newline ∉ r) (hwanted : 0 < wanted) :
    lineStartFromEnd (join newline ls r) wanted =
      (join newline (ls.take ((ls ++ if r = [] then [] else [r]).length - wanted)) []).length := by
  rw [lineStartFromEnd, scanBack_eq]
  have hsplit : join newline ls r = join newline ls [] ++ r := by simp [join]
  by_cases hempty : r = []
  · subst hempty
    cases ls using List.reverseRecOn with
    | nil => simp [scanChunk]
    | append_singleton ls l =>
      have hl : newline ∉ l := hls l (by simp)
      have hrest : ∀ k ∈ ls, newline ∉ k := fun k hk => hls k (by simp [hk])
      have hjoin : join newline (ls ++ [l]) [] = join newline ls [] ++ l ++ [newline] := by
        simp [join]
      have hat : (join newline ls [] ++ l ++ [newline])[
          0 + ((join newline ls []).length + l.length)]? = some newline := by
        simp
      rw [hjoin, List.length_append, List.length_append, List.length_singleton, scanChunk, if_pos hat,
        if_pos (by simp only [List.length_append, List.length_singleton]; omega), scanChunk_clean hl,
        List.append_assoc, scanChunk_lines hrest (by simp) hwanted]
      by_cases hlen : ls.length < wanted
      · have hzero : ls.length + 1 - wanted = 0 := by omega
        simp [hlen, hzero]
      · have hle : ls.length + 1 - wanted ≤ ls.length := by omega
        simp [hlen, List.take_append_of_le_length hle]
  · rw [hsplit, List.length_append]
    have hclean := @scanChunk_clean wanted (join newline ls []) r [] hr 0
    rw [List.append_nil] at hclean
    rw [hclean, scanChunk_lines hls hempty hwanted]
    by_cases hlen : ls.length < wanted
    · have hzero : ls.length + 1 - wanted = 0 := by omega
      simp [hlen, hzero, hempty]
    · simp [hlen, hempty]

/-! ### The last lines of the whole log -/

theorem splitOn_eq_cut (s : List Char) :
    splitOn (fun c => c == '\n') s = (cut '\n' s).1 ++ [(cut '\n' s).2] := by
  induction s with
  | nil => simp [splitOn]
  | cons c s ih =>
    rw [splitOn, ih]
    by_cases hc : c = '\n'
    · simp [hc]
    · cases hs : (cut '\n' s).1 <;> simp [cut, hc, hs]

/-- `str::lines` strips the line ends of the lines. -/
theorem lines_eq_cut (s : List Char) : lines (String.ofList s) =
    (cut '\n' s).1.map stripCr ++ if (cut '\n' s).2 = [] then [] else [(cut '\n' s).2] := by
  rw [lines, String.toList_ofList, splitOn_eq_cut]
  split_ifs with h <;> simp [h]

theorem lines_join {ls : List (List Char)} (hls : ∀ l ∈ ls, '\n' ∉ l) :
    lines (String.ofList (join '\n' ls [])) = ls.map stripCr := by
  rw [lines_eq_cut, cut_join hls (by simp)]
  simp

theorem lossy_reading : Reading lossy newline '\n' where
  split := lossy_append_ascii (by decide) (by decide)
  clean s h hmem := h (mem_of_mem_lossy (by decide) hmem)

theorem lossy_ne_nil {bs : List UInt8} (h : bs ≠ []) : lossy bs ≠ [] := by
  intro hnil
  have hpieces : pieces bs = [] := List.map_eq_nil_iff.mp hnil
  have hbytes := flatMap_bytes_pieces bs
  rw [hpieces] at hbytes
  exact h hbytes.symm

@[simp] theorem lossy_nil : lossy [] = [] := by simp [lossy, pieces]

def fileLines (bytes : List UInt8) : List (List Char) := entries '\n' (lossy bytes)

theorem fileLines_eq (bytes : List UInt8) : fileLines bytes = (cut newline bytes).1.map lossy ++
    if (cut newline bytes).2 = [] then [] else [lossy (cut newline bytes).2] := by
  rw [fileLines, entries, lossy_reading.cut]
  by_cases h : (cut newline bytes).2 = []
  · simp [h]
  · simp [h, lossy_ne_nil h]

theorem terminated_join {out r : List Char} {ls : List (List Char)} (hout : out = [] ∨ out.getLast? = some '\n')
    (hr : '\n' ∉ r) :
    (if out ++ join '\n' ls r ≠ [] ∧ (out ++ join '\n' ls r).getLast? ≠ some '\n' then
      out ++ join '\n' ls r ++ ['\n'] else out ++ join '\n' ls r) =
    out ++ join '\n' (ls ++ if r = [] then [] else [r]) [] := by
  by_cases hempty : r = []
  · subst hempty
    rw [if_neg]
    · simp
    · intro h
      cases ls using List.reverseRecOn with
      | nil =>
        simp only [join_nil, List.append_nil] at h
        exact hout.elim h.1 h.2
      | append_singleton ls l => simp [join] at h
  · have hlast : r.getLast? ≠ some '\n' := fun h => hr (List.mem_of_getLast? h)
    have hsome : r.getLast? = some (r.getLast hempty) := List.getLast?_eq_some_getLast hempty
    rw [if_pos]
    · simp [hempty, join]
    · refine ⟨by simp [join, hempty], ?_⟩
      rw [join, ← List.append_assoc, List.getLast?_append, hsome]
      simpa [hsome] using hlast

theorem appendFileTail_eq {out : List Char} (hout : out = [] ∨ out.getLast? = some '\n')
    (hbudget : bytes.length ≤ LOG_BUDGET_BYTES) (wanted : Nat) :
    appendFileTail bytes wanted out = out ++
      join '\n' (if wanted = 0 then fileLines bytes else lastOf wanted (fileLines bytes)) [] := by
  by_cases hbytes : bytes = []
  · simp [appendFileTail, hbytes, fileLines, entries, lastOf]
  · have hcut := join_cut newline bytes
    have hls : ∀ l ∈ (cut newline bytes).1, newline ∉ l := fun l => not_mem_line
    have hr := not_mem_open newline bytes
    rw [fileLines_eq]
    generalize (cut newline bytes).1 = ls at hcut hls
    generalize (cut newline bytes).2 = r at hcut hr
    -- how many lines are not asked for
    obtain ⟨k, hk, hstart, hshown⟩ : ∃ k, k ≤ ls.length ∧
        (if wanted = 0 then 0 else lineStartFromEnd bytes wanted) = (join newline (ls.take k) []).length ∧
        (if wanted = 0 then ls.map lossy ++ (if r = [] then [] else [lossy r])
          else lastOf wanted (ls.map lossy ++ if r = [] then [] else [lossy r])) =
          (ls.drop k).map lossy ++ if r = [] then [] else [lossy r] := by
      by_cases hzero : wanted = 0
      · exact ⟨0, by simp [hzero]⟩
      · have hpos : 0 < wanted := Nat.pos_of_ne_zero hzero
        refine ⟨(ls ++ if r = [] then [] else [r]).length - wanted, ?_, ?_, ?_⟩
        · split_ifs
          · simp
          · simp
            omega
        · rw [if_neg hzero, ← hcut, lineStartFromEnd_join hls hr hpos]
        · have hlen : (ls.map lossy ++ if r = [] then [] else [lossy r]).length =
              (ls ++ if r = [] then [] else [r]).length := by split_ifs <;> simp
          have hle : (ls ++ if r = [] then [] else [r]).length - wanted ≤ (ls.map lossy).length := by
            split_ifs
            · simp
            · simp
              omega
          rw [if_neg hzero, lastOf, hlen, List.drop_append_of_le_length hle, List.map_drop]
    have hdrop : bytes.drop (join newline (ls.take k) []).length = join newline (ls.drop k) r := by
      have hsplit : bytes = join newline (ls.take k) [] ++ join newline (ls.drop k) r := by
        rw [join_open, ← join_append, List.take_append_drop, hcut]
      rw [hsplit, List.drop_left]
    have hwhole : (join newline (ls.drop k) r).take LOG_BUDGET_BYTES = join newline (ls.drop k) r := by
      apply List.take_of_length_le
      rw [← hdrop, List.length_drop]
      omega
    have hclean := lossy_reading.clean r hr
    have hend := @terminated_join _ _ ((ls.drop k).map lossy) hout hclean
    have hopen : (lossy r = []) = (r = []) := by
      apply propext
      constructor
      · intro h
        by_contra hne
        exact lossy_ne_nil hne h
      · intro h
        simp [h]
    simp only [hopen] at hend
    simp only [appendFileTail, if_neg hbytes, hstart, hdrop, hwhole, lossy_reading.join]
    rw [hend, hshown]

def history (d : Dir) : List (List Char) := (logFiles d).flatMap fun file => fileLines (d.bytes file.2)

theorem mem_of_mem_lastOf {γ : Type} {n : Nat} {l : List γ} {a : γ} (h : a ∈ lastOf n l) : a ∈ l :=
  List.mem_of_mem_drop h

theorem backfillChunks_eq {b : Ino → List UInt8} {files : List (String × Ino)}
    (hbudget : ∀ file ∈ files, (b file.2).length ≤ LOG_BUDGET_BYTES) (needed : Nat) :
    (backfillChunks b files needed).reverse.flatten =
      join '\n' (lastOf needed (files.reverse.flatMap fun file => fileLines (b file.2))) [] := by
  induction files generalizing needed with
  | nil => simp [backfillChunks, lastOf]
  | cons file older ih =>
    by_cases hneeded : needed = 0
    · simp [backfillChunks, hneeded]
    · have htail := @appendFileTail_eq _ [] (by simp) (hbudget file List.mem_cons_self) needed
      rw [if_neg hneeded, List.nil_append] at htail
      have hclean : ∀ l ∈ lastOf needed (fileLines (b file.2)), '\n' ∉ l := fun l hl =>
        not_mem_entry (mem_of_mem_lastOf hl)
      have hcount : (lines (String.ofList (join '\n' (lastOf needed (fileLines (b file.2))) []))).length =
          (lastOf needed (fileLines (b file.2))).length := by
        rw [lines_join hclean, List.length_map]
      simp only [backfillChunks, if_neg hneeded, htail, hcount]
      rw [List.reverse_cons, List.flatten_append, ih fun f hf => hbudget f (List.mem_cons_of_mem _ hf)]
      rw [List.reverse_cons, List.flatMap_append, List.flatMap_singleton, lastOf_append, join_append]
      simp [join]

theorem foldl_appendFileTail {b : Ino → List UInt8} {files : List (String × Ino)} {ls : List (List Char)}
    (hbudget : ∀ file ∈ files, (b file.2).length ≤ LOG_BUDGET_BYTES) :
    files.foldl (fun all file => appendFileTail (b file.2) 0 all) (join '\n' ls []) =
      join '\n' (ls ++ files.flatMap fun file => fileLines (b file.2)) [] := by
  induction files generalizing ls with
  | nil => simp
  | cons file files ih =>
    have hended : join '\n' ls [] = [] ∨ (join '\n' ls []).getLast? = some '\n' := by
      cases ls using List.reverseRecOn with
      | nil => simp
      | append_singleton ls l => simp [join]
    have hstep := appendFileTail_eq hended (hbudget file List.mem_cons_self) 0
    rw [if_pos rfl] at hstep
    have hjoin : join '\n' ls [] ++ join '\n' (fileLines (b file.2)) [] =
        join '\n' (ls ++ fileLines (b file.2)) [] := by simp [join]
    rw [List.foldl_cons, hstep, hjoin, ih fun f hf => hbudget f (List.mem_cons_of_mem _ hf)]
    simp

/-- What is shown is the end of the whole history, as many lines as were asked for, whatever files
they lie in. -/
theorem backfill_eq (h : ∀ file ∈ logFiles d, (d.bytes file.2).length ≤ LOG_BUDGET_BYTES) (wanted : Nat) :
    backfill d wanted =
      join '\n' (if wanted = 0 then history d else lastOf wanted (history d)) [] := by
  by_cases hzero : wanted = 0
  · have hfold := @foldl_appendFileTail _ _ [] h
    rw [join_nil, List.nil_append] at hfold
    rw [backfill, if_pos hzero, if_pos hzero, history]
    exact hfold
  · rw [backfill, if_neg hzero, if_neg hzero, backfillChunks_eq, List.reverse_reverse, history]
    intro file hfile
    exact h file (List.mem_reverse.mp hfile)

/-- Two days: the first file breaks off in its second line, the newer one holds one line. -/
def twoDays : Dir where
  entries := [("daemon.log.2026-08-09", 1), ("graph.db", 2), ("daemon.log.2026-08-05", 0)]
  bytes := fun ino => if ino = 0 then [97, newline, 98] else [99, newline]
  nodup := by decide

theorem backfill_twoDays :
    backfill twoDays 2 = join '\n' (if 2 = 0 then history twoDays else lastOf 2 (history twoDays)) [] := by
  apply backfill_eq
  intro file _
  simp only [twoDays]
  split_ifs <;> decide

/-! ### The sweep -/

def Dir.unlink (d : Dir) (name : String) : Dir where
  entries := d.entries.filter fun e => e.1 ≠ name
  bytes := d.bytes
  nodup := d.nodup.sublist ((List.filter_sublist).map Prod.fst)

def Dir.link (d : Dir) (name : String) (ino : Ino) : Dir where
  entries := (name, ino) :: d.entries.filter fun e => e.1 ≠ name
  bytes := d.bytes
  nodup := by
    rw [List.map_cons, List.nodup_cons]
    refine ⟨?_, d.nodup.sublist (List.filter_sublist.map Prod.fst)⟩
    simp

def Dir.write (d : Dir) (ino : Ino) (bytes : List UInt8) : Dir where
  entries := d.entries
  bytes := Function.update d.bytes ino bytes
  nodup := d.nodup

/-- `remove_file`, which may fail. -/
def removeFile (removable : String → Bool) (name : String) (d : Dir) : Option Dir :=
  if removable name then some (d.unlink name) else none

/-- The count cap, oldest first; `remove(0)` panics where no file is left. -/
def countCap (removable : String → Bool) (maxFiles : Nat) :
    List (String × Ino) → Nat × Dir → Option (List (String × Ino) × Nat × Dir)
  | [], state => if maxFiles < 1 then none else some ([], state)
  | victim :: files, (removed, d) =>
    if maxFiles < files.length + 2 then
      countCap removable maxFiles files
        (match removeFile removable victim.1 d with
        | some d => (removed + 1, d)
        | none => (removed, d))
    else some (victim :: files, removed, d)

def budgetCap (removable : String → Bool) (budget : Nat) :
    List (String × Ino) → Nat → Nat × Dir → Nat × Dir
  | [], _, state => state
  | victim :: files, total, (removed, d) =>
    if budget < total then
      match removeFile removable victim.1 d with
      | some d => budgetCap removable budget files (total - (d.bytes victim.2).length) (removed + 1, d)
      | none => (removed, d)
    else (removed, d)

def sizes (d : Dir) (files : List (String × Ino)) : Nat :=
  (files.map fun file => (d.bytes file.2).length).sum

/-- `prune`: how many files went, and the directory without them. -/
def prune (removable : String → Bool) (d : Dir) (budget maxFiles : Nat) : Option (Nat × Dir) :=
  match (logFiles d).reverse with
  | newest :: older :: rest =>
    (countCap removable maxFiles (older :: rest).reverse (0, d)).map fun r =>
      budgetCap removable budget r.1 (sizes d r.1 + (d.bytes newest.2).length) r.2
  | _ => some (0, d)

/-- `prune_if_rotated`. -/
def pruneIfRotated (removable : String → Bool) (d : Dir) (last : Option String)
    (budget maxFiles : Nat) : Option (Option String × Nat × Dir) :=
  let current := (currentLogFile d).map Prod.fst
  if current = none ∨ current = last then some (last, 0, d)
  else (prune removable d budget maxFiles).map fun r => (current, r)

/-! ### What a sweep leaves -/

theorem nodup_logFiles (d : Dir) : ((logFiles d).map Prod.fst).Nodup := by
  have hperm := (@perm_sortBy _ _ _ Prod.fst
    (d.entries.filter fun e => startsWith e.1 LOG_PREFIX)).map Prod.fst
  exact hperm.nodup_iff.mpr (d.nodup.sublist (List.filter_sublist.map Prod.fst))

theorem logFiles_unlink (d : Dir) (name : String) :
    logFiles (d.unlink name) = (logFiles d).filter fun e => e.1 ≠ name := by
  have hn : ((d.entries.filter fun e => startsWith e.1 LOG_PREFIX).map Prod.fst).Nodup :=
    d.nodup.sublist (List.filter_sublist.map Prod.fst)
  rw [logFiles, logFiles, ← sortBy_filter hn, Dir.unlink, List.filter_filter, List.filter_filter]
  congr 2
  funext e
  exact Bool.and_comm _ _

theorem logFiles_unlink_head {victim : String × Ino} {files : List (String × Ino)}
    (h : logFiles d = victim :: files) : logFiles (d.unlink victim.1) = files := by
  have hn := nodup_logFiles d
  rw [h, List.map_cons, List.nodup_cons] at hn
  rw [logFiles_unlink, h, List.filter_cons_of_neg (by simp), List.filter_eq_self]
  intro e he
  have : e.1 ≠ victim.1 := fun heq => hn.1 (heq ▸ List.mem_map_of_mem he)
  simpa using this

/-- A name that is no log file is left as it is. -/
def SameOthers (d d' : Dir) : Prop :=
  d'.bytes = d.bytes ∧ ∀ e, startsWith e.1 LOG_PREFIX = false → (e ∈ d'.entries ↔ e ∈ d.entries)

theorem SameOthers.refl (d : Dir) : SameOthers d d := ⟨rfl, fun _ _ => Iff.rfl⟩

theorem SameOthers.trans {d₁ d₂ d₃ : Dir} (h : SameOthers d₁ d₂) (h' : SameOthers d₂ d₃) :
    SameOthers d₁ d₃ :=
  ⟨h'.1.trans h.1, fun e he => (h'.2 e he).trans (h.2 e he)⟩

theorem isLog_of_mem {e : String × Ino} (h : e ∈ logFiles d) : startsWith e.1 LOG_PREFIX = true := by
  have := mem_sortBy.mp h
  exact (List.mem_filter.mp this).2

theorem SameOthers.unlink {victim : String × Ino} (h : victim ∈ logFiles d) :
    SameOthers d (d.unlink victim.1) := by
  refine ⟨by simp [Dir.unlink], ?_⟩
  intro e he
  have hne : e.1 ≠ victim.1 := by
    intro heq
    rw [heq, isLog_of_mem h] at he
    simp at he
  simp [Dir.unlink, hne]

variable {removable : String → Bool} {budget maxFiles : Nat}

/-- Every log file can be removed. -/
def Removable (removable : String → Bool) : Prop :=
  ∀ name, startsWith name LOG_PREFIX = true → removable name = true

theorem countCap_spec (hrem : Removable removable) (hmax : 0 < maxFiles) {newest : String × Ino}
    {files : List (String × Ino)} (h : logFiles d = files ++ [newest]) (removed : Nat) :
    ∃ d', countCap removable maxFiles files (removed, d) =
        some (files.drop (files.length + 1 - maxFiles), removed + (files.length + 1 - maxFiles), d') ∧
      logFiles d' = files.drop (files.length + 1 - maxFiles) ++ [newest] ∧ SameOthers d d' := by
  induction files generalizing d removed with
  | nil =>
    have hzero : 1 - maxFiles = 0 := by omega
    refine ⟨d, ?_, by simpa using h, SameOthers.refl d⟩
    simp [countCap, hzero]
    omega
  | cons victim files ih =>
    have hmem : victim ∈ logFiles d := by simp [h]
    by_cases hcap : maxFiles < files.length + 2
    · have hgone : removeFile removable victim.1 d = some (d.unlink victim.1) := by
        simp [removeFile, hrem _ (isLog_of_mem hmem)]
      obtain ⟨d', hrun, hleft, hothers⟩ := ih (logFiles_unlink_head h) (removed + 1)
      have hk : (victim :: files).length + 1 - maxFiles = files.length + 1 - maxFiles + 1 := by
        simp only [List.length_cons]
        omega
      refine ⟨d', ?_, by rw [hk]; simpa using hleft, (SameOthers.unlink hmem).trans hothers⟩
      simp only [countCap, if_pos hcap, hgone, hrun, hk, List.drop_succ_cons]
      congr 3
      omega
    · have hk : (victim :: files).length + 1 - maxFiles = 0 := by
        simp only [List.length_cons]
        omega
      rw [hk]
      refine ⟨d, ?_, by simpa using h, SameOthers.refl d⟩
      simp [countCap, hcap]

theorem sizes_cons (d : Dir) (file : String × Ino) (files : List (String × Ino)) :
    sizes d (file :: files) = (d.bytes file.2).length + sizes d files := by simp [sizes]

theorem sizes_congr {d' : Dir} (h : d'.bytes = d.bytes) (files : List (String × Ino)) :
    sizes d' files = sizes d files := by simp [sizes, h]

theorem sizes_suffix {files kept : List (String × Ino)} (h : kept <:+ files) (d : Dir) :
    sizes d kept ≤ sizes d files := by
  obtain ⟨gone, rfl⟩ := h
  simp [sizes]

theorem budgetCap_spec (hrem : Removable removable) {newest : String × Ino} {files : List (String × Ino)}
    (h : logFiles d = files ++ [newest]) (removed : Nat) :
    ∃ k d', budgetCap removable budget files (sizes d (files ++ [newest])) (removed, d) = (removed + k, d') ∧
      k ≤ files.length ∧ logFiles d' = files.drop k ++ [newest] ∧ SameOthers d d' ∧
      (sizes d (files.drop k ++ [newest]) ≤ budget ∨ k = files.length) ∧
      ∀ i < k, budget < sizes d (files.drop i ++ [newest]) := by
  induction files generalizing d removed with
  | nil => exact ⟨0, d, by simp [budgetCap], by simp, by simpa using h, SameOthers.refl d, by simp, by simp⟩
  | cons victim files ih =>
    have hmem : victim ∈ logFiles d := by simp [h]
    by_cases hover : budget < sizes d (victim :: files ++ [newest])
    · have hgone : removeFile removable victim.1 d = some (d.unlink victim.1) := by
        simp [removeFile, hrem _ (isLog_of_mem hmem)]
      obtain ⟨k, d', hrun, hk, hleft, hothers, hfit, hleast⟩ :=
        ih (logFiles_unlink_head h) (removed + 1)
      have hbytes : (d.unlink victim.1).bytes = d.bytes := by simp [Dir.unlink]
      simp only [sizes_congr hbytes] at hrun hfit hleast
      have hfreed : sizes d (victim :: files ++ [newest]) - (d.bytes victim.2).length =
          sizes d (files ++ [newest]) := by simp [sizes_cons]
      refine ⟨k + 1, d', ?_, by simpa using hk, by simpa using hleft,
        (SameOthers.unlink hmem).trans hothers, by simpa using hfit, ?_⟩
      · rw [budgetCap, if_pos hover, hgone]
        simp only [hbytes, hfreed, hrun]
        congr 1
        omega
      · intro i hi
        cases i with
        | zero => simpa using hover
        | succ i => simpa using hleast i (by omega)
    · refine ⟨0, d, by simp only [budgetCap, if_neg hover]; simp, by simp, by simpa using h,
        SameOthers.refl d, ?_, by simp⟩
      left
      simpa using hover

theorem suffix_drop_snoc (k : Nat) (newest : String × Ino) (files : List (String × Ino)) :
    files.drop k ++ [newest] <:+ files ++ [newest] := by
  refine ⟨files.take k, ?_⟩
  rw [← List.append_assoc, List.take_append_drop]

/-- Within both caps. -/
def Fits (d : Dir) (budget maxFiles : Nat) (files : List (String × Ino)) : Prop :=
  files.length ≤ maxFiles ∧ sizes d files ≤ budget

/-- The newest files that fit both caps stay, the newest of all in any case, and only they. -/
structure Swept (budget maxFiles : Nat) (d d' : Dir) : Prop where
  others : SameOthers d d'
  suffix : logFiles d' <:+ logFiles d
  newest : currentLogFile d' = currentLogFile d
  caps : Fits d budget maxFiles (logFiles d') ∨ (logFiles d').length ≤ 1
  longest : ∀ kept, kept <:+ logFiles d → Fits d budget maxFiles kept →
    kept.length ≤ (logFiles d').length

theorem prune_swept (hrem : Removable removable) (hmax : 0 < maxFiles) (d : Dir) (budget : Nat) :
    ∃ removed d', prune removable d budget maxFiles = some (removed, d') ∧
      (logFiles d).length = (logFiles d').length + removed ∧ Swept budget maxFiles d d' := by
  rw [prune]
  split
  · case h_1 newest older rest hrev =>
    have hlog : logFiles d = (older :: rest).reverse ++ [newest] := by
      rw [← List.reverse_reverse (logFiles d), hrev, List.reverse_cons]
    generalize (older :: rest).reverse = files at hlog ⊢
    obtain ⟨d₁, hcount, hleft₁, hothers₁⟩ := countCap_spec hrem hmax hlog 0
    obtain ⟨j, d', hbudget, hj, hleft, hothers, hfit, hleast⟩ :=
      @budgetCap_spec _ _ budget hrem _ _ hleft₁ (files.length + 1 - maxFiles)
    have hsizes : sizes d₁ (files.drop (files.length + 1 - maxFiles) ++ [newest]) =
        sizes d₁ (files.drop (files.length + 1 - maxFiles)) + (d.bytes newest.2).length := by
      simp [sizes, hothers₁.1]
    rw [hsizes] at hbudget
    simp only [sizes_congr hothers₁.1, List.drop_drop] at hbudget hfit hleast hleft
    rw [List.length_drop] at hj hfit
    refine ⟨files.length + 1 - maxFiles + j, d', ?_, ?_, hothers₁.trans hothers, ?_, ?_, ?_, ?_⟩
    · rw [hcount, Nat.zero_add, Option.map_some]
      simp only [hbudget]
    · rw [hlog, hleft]
      simp only [List.length_append, List.length_drop, List.length_singleton]
      omega
    · rw [hlog, hleft]
      exact suffix_drop_snoc _ _ _
    · simp [currentLogFile, hlog, hleft]
    · rw [hleft]
      rcases hfit with hfit | hall
      · by_cases hone : files.length ≤ files.length + 1 - maxFiles + j
        · right
          simp only [List.length_append, List.length_drop, List.length_singleton]
          omega
        · left
          refine ⟨?_, hfit⟩
          simp only [List.length_append, List.length_drop, List.length_singleton]
          omega
      · right
        simp only [List.length_append, List.length_drop, List.length_singleton]
        omega
    · intro kept hkept hfits
      by_contra hlong
      have hle := hkept.length_le
      rw [hlog] at hkept hle
      rw [hleft] at hlong
      simp only [List.length_append, List.length_drop, List.length_singleton] at hlong hle
      cases j with
      | zero =>
        have := hfits.1
        omega
      | succ j =>
        have hover := hleast j (by omega)
        have hsuffix : files.drop (files.length + 1 - maxFiles + j) ++ [newest] <:+ kept := by
          apply List.suffix_of_suffix_length_le _ hkept
          · simp only [List.length_append, List.length_drop, List.length_singleton]
            omega
          · exact suffix_drop_snoc _ _ _
        have := sizes_suffix hsuffix d
        have := hfits.2
        omega
  · case h_2 hshort =>
    have hlen : (logFiles d).length ≤ 1 := by
      rw [← List.length_reverse]
      cases hrev : (logFiles d).reverse with
      | nil => simp
      | cons newest rest =>
        cases rest with
        | nil => simp
        | cons older rest => exact absurd hrev (hshort newest older rest)
    exact ⟨0, d, by simp, by simp, SameOthers.refl d, List.suffix_refl _, by simp, .inr hlen,
      fun kept hkept _ => hkept.length_le⟩

/-- A sweep keeps the newest files, as many as fit both caps, or the newest alone. -/
theorem prune_keeps (hrem : Removable removable) (hmax : 0 < maxFiles) (d : Dir) (budget : Nat) :
    ∃ removed d', prune removable d budget maxFiles = some (removed, d') ∧
      (logFiles d).length = (logFiles d').length + removed ∧ Swept budget maxFiles d d' :=
  prune_swept hrem hmax d budget

theorem prune_twoDays : ∃ removed d', prune (fun _ => true) twoDays 2 7 = some (removed, d') ∧
    (logFiles twoDays).length = (logFiles d').length + removed ∧ Swept 2 7 twoDays d' :=
  prune_keeps (fun _ _ => by decide) (by decide) twoDays 2

/-! ### Sweeps over the daemon's life -/

/-- What the daemon can come to, with the newest file it has seen: it sweeps when it starts, then
files are written, a new day opens a file whose name sorts after the others, and ticks sweep again. -/
inductive Reaches (removable : String → Bool) : Dir → Option String → Prop
  | start {d d' : Dir} {removed : Nat} :
    prune removable d LOG_BUDGET_BYTES MAX_LOG_FILES = some (removed, d') →
    Reaches removable d' ((currentLogFile d').map Prod.fst)
  | write {d : Dir} {last : Option String} (ino : Ino) (bytes : List UInt8) :
    Reaches removable d last → Reaches removable (d.write ino bytes) last
  | rotate {d : Dir} {last : Option String} {name : String} (ino : Ino) :
    Reaches removable d last → startsWith name LOG_PREFIX = true →
    (∀ file ∈ logFiles d, file.1 < name) → Reaches removable (d.link name ino) last
  | tick {d d' : Dir} {last last' : Option String} {removed : Nat} :
    Reaches removable d last →
    pruneIfRotated removable d last LOG_BUDGET_BYTES MAX_LOG_FILES = some (last', removed, d') →
    Reaches removable d' last'

@[simp] theorem logFiles_write (d : Dir) (ino : Ino) (bytes : List UInt8) :
    logFiles (d.write ino bytes) = logFiles d := by simp [logFiles, Dir.write]

theorem logFiles_link {name : String} (hlog : startsWith name LOG_PREFIX = true)
    (hnew : ∀ file ∈ logFiles d, file.1 < name) (ino : Ino) :
    logFiles (d.link name ino) = logFiles d ++ [(name, ino)] := by
  have hn : (((d.link name ino).entries.filter fun e => startsWith e.1 LOG_PREFIX).map Prod.fst).Nodup :=
    (d.link name ino).nodup.sublist (List.filter_sublist.map Prod.fst)
  symm
  apply eq_sortBy hn
  · rw [List.pairwise_append]
    refine ⟨sorted_sortBy _, by simp, ?_⟩
    intro file hfile new hmem
    rw [List.mem_singleton.mp hmem]
    exact le_of_lt (hnew file hfile)
  · have hkeep : (d.entries.filter fun e => e.1 ≠ name).filter (fun e => startsWith e.1 LOG_PREFIX) =
        d.entries.filter fun e => startsWith e.1 LOG_PREFIX := by
      rw [List.filter_filter]
      apply List.filter_congr
      intro e he
      by_cases hpre : startsWith e.1 LOG_PREFIX = true
      · have hmem : e ∈ logFiles d := mem_sortBy.mpr (List.mem_filter.mpr ⟨he, hpre⟩)
        simp [hpre, ne_of_lt (hnew e hmem)]
      · simp [hpre]
    rw [Dir.link, List.filter_cons_of_pos (by simpa using hlog), hkeep]
    exact (List.perm_append_singleton _ _).trans ((perm_sortBy _).cons _)

theorem Swept.length_le {d' : Dir} (h : Swept budget maxFiles d d') (hmax : 0 < maxFiles) :
    (logFiles d').length ≤ maxFiles := by
  rcases h.caps with hfits | hone
  · exact hfits.1
  · exact hone.trans hmax

theorem pruneIfRotated_spec (hrem : Removable removable) (hmax : 0 < maxFiles) (d : Dir)
    (last : Option String) (budget : Nat) :
    ∃ last' removed d', pruneIfRotated removable d last budget maxFiles = some (last', removed, d') ∧
      ((((currentLogFile d).map Prod.fst = none ∨ (currentLogFile d).map Prod.fst = last) ∧
          last' = last ∧ d' = d) ∨
        (last' = (currentLogFile d).map Prod.fst ∧ Swept budget maxFiles d d')) := by
  by_cases hsame : (currentLogFile d).map Prod.fst = none ∨ (currentLogFile d).map Prod.fst = last
  · exact ⟨last, 0, d, by simp only [pruneIfRotated, if_pos hsame], .inl ⟨hsame, by simp⟩⟩
  · obtain ⟨removed, d', hrun, -, hswept⟩ := prune_swept hrem hmax d budget
    exact ⟨(currentLogFile d).map Prod.fst, removed, d',
      by simp only [pruneIfRotated, if_neg hsame, hrun, Option.map_some], .inr (And.intro rfl hswept)⟩

theorem mem_of_current {file : String × Ino} (h : currentLogFile d = some file) : file ∈ logFiles d :=
  List.mem_of_getLast? h

/-- The file seen last is still there, and while no newer one is the cap on the count holds. -/
structure Capped (d : Dir) (last : Option String) : Prop where
  known : ∀ n ∈ last, ∃ file ∈ logFiles d, file.1 = n
  count : (currentLogFile d).map Prod.fst = last → (logFiles d).length ≤ MAX_LOG_FILES

theorem Swept.capped {d' : Dir} (h : Swept LOG_BUDGET_BYTES MAX_LOG_FILES d d') :
    Capped d' ((currentLogFile d').map Prod.fst) := by
  constructor
  · intro n hn
    obtain ⟨file, hfile, rfl⟩ := Option.map_eq_some_iff.mp hn
    exact ⟨file, mem_of_current hfile, by simp⟩
  · exact fun _ => h.length_le (by decide)

theorem Reaches.capped {last : Option String} (hrem : Removable removable)
    (h : Reaches removable d last) : Capped d last := by
  have hmax : 0 < MAX_LOG_FILES := by decide
  induction h with
  | @start d d' removed hprune =>
    obtain ⟨removed', d'', hrun, -, hswept⟩ := prune_swept hrem hmax d LOG_BUDGET_BYTES
    rw [hprune, Option.some.injEq, Prod.mk.injEq] at hrun
    rw [hrun.2]
    exact hswept.capped
  | write ino bytes hreach ih =>
    constructor
    · simpa using ih.known
    · simpa [currentLogFile] using ih.count
  | @rotate d last name ino hreach hlog hnew ih =>
    have hfiles := logFiles_link hlog hnew ino
    constructor
    · intro n hn
      obtain ⟨file, hfile, hname⟩ := ih.known n hn
      exact ⟨file, by simp [hfiles, hfile], hname⟩
    · intro hseen
      rw [currentLogFile, hfiles] at hseen
      obtain ⟨file, hfile, hname⟩ := ih.known name (by simp [← hseen])
      exact absurd hname (ne_of_lt (hnew file hfile))
  | @tick d d' last last' removed hreach hrun ih =>
    obtain ⟨l, r, e, hspec, hcases⟩ := pruneIfRotated_spec hrem hmax d last LOG_BUDGET_BYTES
    rw [hrun, Option.some.injEq, Prod.mk.injEq, Prod.mk.injEq] at hspec
    obtain ⟨rfl, -, rfl⟩ := hspec
    rcases hcases with ⟨-, rfl, rfl⟩ | ⟨rfl, hswept⟩
    · exact ih
    · rw [← hswept.newest]
      exact hswept.capped

end Travsr.Daemon.LogFile
