import Travsr.Lib.Utf8Lossy

namespace Travsr.Ipc

open Utf8Lossy

def MAX_RESPONSE_BYTES : Nat := 256 * 1024 * 1024

def READ_CHUNK_BYTES : Nat := 4096

def newline : UInt8 := 10

/-- How one call of the stream ends; `now` is what the clock says after a would-block. -/
inductive Attempt (α : Type) where
  | done (result : α)
  | interrupted
  | wouldBlock (now : Nat)
  | failed (error : String)

/-- When the call began and how long it may take, in nanoseconds. -/
structure Deadline where
  start : Nat
  length : Nat

def Deadline.cutoff (d : Deadline) : Nat := d.start + d.length

def Deadline.secs (d : Deadline) : String := (d.length / 1000000000).repr

/-! ### Writing -/

def closedMidRequest : String := "daemon closed the control connection mid-request"

def sendTimedOut (d : Deadline) : String :=
  "timed out after " ++ d.secs ++ "s sending the request to the daemon (it may be busy or wedged; " ++
    "`travsr daemon status` will say whether it is still running)"

/-- The bytes the stream has taken, and how the call ends; it has not ended when the attempts are
used up. -/
structure WriteRun where
  delivered : List UInt8
  outcome : Option (Except String Unit)

/-- `write_all_before`. A write that could take more than there is takes all there is. -/
def writeAllBefore (d : Deadline) : List (Attempt Nat) → List UInt8 → WriteRun
  | _, [] => ⟨[], some (.ok ())⟩
  | [], _ :: _ => ⟨[], none⟩
  | .done n :: attempts, b :: buf =>
    if n = 0 then ⟨[], some (.error closedMidRequest)⟩
    else
      let rest := writeAllBefore d attempts ((b :: buf).drop n)
      ⟨(b :: buf).take n ++ rest.delivered, rest.outcome⟩
  | .interrupted :: attempts, b :: buf => writeAllBefore d attempts (b :: buf)
  | .wouldBlock now :: attempts, b :: buf =>
    if now < d.cutoff then writeAllBefore d attempts (b :: buf)
    else ⟨[], some (.error (sendTimedOut d))⟩
  | .failed error :: _, _ :: _ => ⟨[], some (.error error)⟩

def offered (attempts : List (Attempt Nat)) : Nat :=
  (attempts.map fun | .done n => n | _ => 0).sum

/-- What ends a write or a read early: a closed stream, a deadline that has passed, an error. -/
def Attempt.Breaks {α : Type} (d : Deadline) (closed : α) : Attempt α → Prop
  | .done a => a = closed
  | .interrupted => False
  | .wouldBlock now => d.cutoff ≤ now
  | .failed _ => True

/-- How a call of `write_all_before` stands. -/
inductive WriteRun.Sound (d : Deadline) (attempts : List (Attempt Nat)) (buf : List UInt8) :
    WriteRun → Prop
  | ok : Sound d attempts buf ⟨buf, some (.ok ())⟩
  | error {delivered : List UInt8} {e : String} : delivered <+: buf → delivered ≠ buf →
    (∃ a ∈ attempts, a.Breaks d 0) → Sound d attempts buf ⟨delivered, some (.error e)⟩
  | waiting {delivered : List UInt8} : delivered <+: buf → delivered.length = offered attempts →
    delivered ≠ buf → Sound d attempts buf ⟨delivered, none⟩

theorem WriteRun.Sound.cons {d : Deadline} {a : Attempt Nat} {attempts : List (Attempt Nat)}
    {buf : List UInt8} {r : WriteRun} (h : Sound d attempts buf r) (ha : offered [a] = 0) :
    Sound d (a :: attempts) buf r := by
  have hoffered : offered (a :: attempts) = offered attempts := by
    simp only [offered, List.map_cons, List.map_nil, List.sum_cons, List.sum_nil] at ha ⊢
    omega
  cases h with
  | ok => exact .ok
  | error hpre hne hbreaks =>
    obtain ⟨x, hx, hbreak⟩ := hbreaks
    exact .error hpre hne ⟨x, List.mem_cons_of_mem a hx, hbreak⟩
  | waiting hpre hlen hne => exact .waiting hpre (hlen.trans hoffered.symm) hne

theorem WriteRun.Sound.write {d : Deadline} {n : Nat} {attempts : List (Attempt Nat)}
    {buf : List UInt8} {r : WriteRun} (h : Sound d attempts (buf.drop n) r) :
    Sound d (.done n :: attempts) buf ⟨buf.take n ++ r.delivered, r.outcome⟩ := by
  have hsplit : buf.take n ++ buf.drop n = buf := List.take_append_drop n buf
  have hpre : ∀ {l : List UInt8}, l <+: buf.drop n → buf.take n ++ l <+: buf := by
    intro l hl
    conv_rhs => rw [← hsplit]
    exact (List.prefix_append_right_inj _).mpr hl
  have hne : ∀ {l : List UInt8}, l ≠ buf.drop n → buf.take n ++ l ≠ buf := by
    intro l hl heq
    conv_rhs at heq => rw [← hsplit]
    exact hl (List.append_cancel_left heq)
  cases h with
  | ok =>
    rw [hsplit]
    exact .ok
  | error hl hlne hbreaks =>
    obtain ⟨x, hx, hbreak⟩ := hbreaks
    exact .error (hpre hl) (hne hlne) ⟨x, List.mem_cons_of_mem _ hx, hbreak⟩
  | waiting hl hlen hlne =>
    refine .waiting (hpre hl) ?_ (hne hlne)
    have hfull : (buf.take n).length = n := by
      have hshort : (buf.drop n).length ≠ 0 := by
        intro hzero
        have hnil := List.length_eq_zero_iff.mp hzero
        rw [hnil] at hl hlne
        exact hlne (List.prefix_nil.mp hl)
      rw [List.length_drop] at hshort
      rw [List.length_take]
      omega
    rw [List.length_append, hlen, hfull]
    simp [offered]

theorem writeAllBefore_sound (d : Deadline) (attempts : List (Attempt Nat)) (buf : List UInt8) :
    (writeAllBefore d attempts buf).Sound d attempts buf := by
  have hnil : ∀ b (buf : List UInt8), [] <+: b :: buf ∧ [] ≠ b :: buf :=
    fun b buf => ⟨List.nil_prefix, by simp⟩
  induction attempts generalizing buf with
  | nil =>
    cases buf with
    | nil => exact .ok
    | cons b buf => exact .waiting (hnil b buf).1 rfl (hnil b buf).2
  | cons a attempts ih =>
    cases buf with
    | nil => cases a <;> exact .ok
    | cons b buf =>
      cases a with
      | done n =>
        rw [writeAllBefore]
        split_ifs with hn
        · exact .error (hnil b buf).1 (hnil b buf).2 ⟨_, List.mem_cons_self, hn⟩
        · exact (ih _).write
      | interrupted => exact (ih _).cons rfl
      | wouldBlock now =>
        rw [writeAllBefore]
        split_ifs with hnow
        · exact (ih _).cons rfl
        · exact .error (hnil b buf).1 (hnil b buf).2
            ⟨_, List.mem_cons_self, Nat.le_of_not_lt hnow⟩
      | failed e => exact .error (hnil b buf).1 (hnil b buf).2 ⟨_, List.mem_cons_self, trivial⟩

/-! ### Reading -/

def capExceeded : String :=
  "daemon response exceeded the " ++ (MAX_RESPONSE_BYTES / (1024 * 1024)).repr ++
    " MiB cap; either the daemon is misbehaving or the query result is enormous (for very large " ++
    "graph queries, `travsr graph --all` bypasses the daemon and this cap)"

def responseTimedOut (d : Deadline) : String :=
  "timed out after " ++ d.secs ++ "s waiting for the daemon's response (it may be busy or " ++
    "wedged; `travsr daemon status` will say whether it is still running)"

/-- The size of the buffer after each read, and how the call ends. -/
structure ReadRun where
  buffered : List Nat
  outcome : Option (Except String (List Char))

/-- `read_line_before`; a read of nothing is the end of the stream. -/
def readLineBefore (d : Deadline) : List (Attempt (List UInt8)) → List UInt8 → ReadRun
  | [], _ => ⟨[], none⟩
  | .done [] :: _, out => ⟨[], some (.ok (lossy out))⟩
  | .done (b :: chunk) :: attempts, out =>
    match (b :: chunk).idxOf? newline with
    | some nl =>
      let out := out ++ (b :: chunk).take nl
      ⟨[out.length], some (.ok (lossy out))⟩
    | none =>
      let out := out ++ (b :: chunk)
      if out.length ≤ MAX_RESPONSE_BYTES then
        let rest := readLineBefore d attempts out
        ⟨out.length :: rest.buffered, rest.outcome⟩
      else ⟨[out.length], some (.error capExceeded)⟩
  | .interrupted :: attempts, out => readLineBefore d attempts out
  | .wouldBlock now :: attempts, out =>
    if now < d.cutoff then readLineBefore d attempts out
    else ⟨[], some (.error (responseTimedOut d))⟩
  | .failed error :: _, _ => ⟨[], some (.error error)⟩

def Attempt.InChunk : Attempt (List UInt8) → Prop
  | .done chunk => chunk.length ≤ READ_CHUNK_BYTES
  | _ => True

def lineOf (stream : List UInt8) : List UInt8 := stream.takeWhile (· ≠ newline)

def streamOf (arrivals : List (Attempt (List UInt8))) : List UInt8 :=
  arrivals.flatMap fun | .done chunk => chunk | _ => []

/-- A way for bytes to arrive: in chunks, with would-blocks before the deadline and interrupts
between them. -/
def Arrives (d : Deadline) (arrivals : List (Attempt (List UInt8))) : Prop :=
  ∀ a ∈ arrivals, a.InChunk ∧ ¬ a.Breaks d []

def readArrivals (d : Deadline) (arrivals : List (Attempt (List UInt8))) : ReadRun :=
  readLineBefore d (arrivals ++ [.done []]) []

theorem lineOf_append {chunk : List UInt8} (h : newline ∉ chunk) (rest : List UInt8) :
    lineOf (chunk ++ rest) = chunk ++ lineOf rest := by
  refine List.takeWhile_append_of_pos fun b hb => ?_
  simpa using fun heq : b = newline => h (heq ▸ hb)

theorem lineOf_cut {chunk : List UInt8} {nl : Nat} (h : chunk.idxOf? newline = some nl)
    (rest : List UInt8) : lineOf (chunk ++ rest) = chunk.take nl ∧ nl < chunk.length := by
  induction chunk generalizing nl with
  | nil => simp at h
  | cons b chunk ih =>
    by_cases hb : b = newline
    · subst hb
      simp only [List.idxOf?_cons, beq_self_eq_true, if_true, Option.some.injEq] at h
      subst h
      simp [lineOf]
    · have hne : (b == newline) = false := by simpa using hb
      simp only [List.idxOf?_cons, hne, Bool.false_eq_true, if_false, Option.map_eq_some_iff] at h
      obtain ⟨k, hk, rfl⟩ := h
      obtain ⟨hline, hlt⟩ := ih hk
      refine ⟨?_, by simpa using hlt⟩
      rw [List.cons_append, lineOf, List.takeWhile_cons_of_pos (by simpa using hb),
        List.take_succ_cons]
      exact congrArg (b :: ·) hline

theorem newline_notMem {chunk : List UInt8} (h : chunk.idxOf? newline = none) :
    newline ∉ chunk := by
  simpa using h

theorem readLineBefore_spec {d : Deadline} {arrivals : List (Attempt (List UInt8))}
    (h : Arrives d arrivals) {out : List UInt8} (hout : out.length ≤ MAX_RESPONSE_BYTES) :
    (readLineBefore d (arrivals ++ [.done []]) out).outcome =
        some (.ok (lossy (out ++ lineOf (streamOf arrivals)))) ∧
      (out ++ lineOf (streamOf arrivals)).length < MAX_RESPONSE_BYTES + READ_CHUNK_BYTES ∨
    (readLineBefore d (arrivals ++ [.done []]) out).outcome = some (.error capExceeded) ∧
      MAX_RESPONSE_BYTES < (out ++ lineOf (streamOf arrivals)).length := by
  have hchunk : 0 < READ_CHUNK_BYTES := by decide
  induction arrivals generalizing out with
  | nil =>
    refine .inl ⟨by simp [readLineBefore, streamOf, lineOf], ?_⟩
    simp only [streamOf, List.flatMap_nil, lineOf, List.takeWhile_nil, List.append_nil]
    omega
  | cons a arrivals ih =>
    have hrest : Arrives d arrivals := fun x hx => h x (List.mem_cons_of_mem a hx)
    obtain ⟨hin, hgoes⟩ := h a List.mem_cons_self
    cases a with
    | interrupted => exact ih hrest hout
    | wouldBlock now =>
      have hnow : now < d.cutoff := Nat.lt_of_not_le hgoes
      have hstep : readLineBefore d (.wouldBlock now :: arrivals ++ [.done []]) out =
          readLineBefore d (arrivals ++ [.done []]) out := if_pos hnow
      rw [hstep]
      exact ih hrest hout
    | failed e => exact absurd trivial hgoes
    | done chunk =>
      cases chunk with
      | nil => exact absurd rfl hgoes
      | cons b chunk =>
        have hstream : streamOf (.done (b :: chunk) :: arrivals) =
            (b :: chunk) ++ streamOf arrivals := rfl
        have hlen : (b :: chunk).length ≤ READ_CHUNK_BYTES := hin
        rw [hstream, List.cons_append, readLineBefore]
        cases hnl : (b :: chunk).idxOf? newline with
        | some nl =>
          obtain ⟨hline, hlt⟩ := lineOf_cut hnl (streamOf arrivals)
          refine .inl ⟨by rw [hline], ?_⟩
          rw [hline, List.length_append, List.length_take]
          omega
        | none =>
          have hline := lineOf_append (newline_notMem hnl) (streamOf arrivals)
          dsimp only
          split_ifs with hcap
          · rw [hline, ← List.append_assoc]
            exact ih hrest hcap
          · refine .inr ⟨rfl, ?_⟩
            rw [hline, ← List.append_assoc, List.length_append]
            omega

theorem buffered_le (d : Deadline) {attempts : List (Attempt (List UInt8))}
    (h : ∀ a ∈ attempts, a.InChunk) {out : List UInt8} (hout : out.length ≤ MAX_RESPONSE_BYTES) :
    ∀ n ∈ (readLineBefore d attempts out).buffered, n ≤ MAX_RESPONSE_BYTES + READ_CHUNK_BYTES := by
  induction attempts generalizing out with
  | nil => simp [readLineBefore]
  | cons a attempts ih =>
    have hrest : ∀ x ∈ attempts, x.InChunk := fun x hx => h x (List.mem_cons_of_mem a hx)
    have hin := h a List.mem_cons_self
    cases a with
    | interrupted => exact ih hrest hout
    | wouldBlock now =>
      rw [readLineBefore]
      split_ifs
      · exact ih hrest hout
      · simp
    | failed e => simp [readLineBefore]
    | done chunk =>
      cases chunk with
      | nil => simp [readLineBefore]
      | cons b chunk =>
        have hlen : (b :: chunk).length ≤ READ_CHUNK_BYTES := hin
        rw [readLineBefore]
        cases (b :: chunk).idxOf? newline with
        | some nl =>
          simp only [List.mem_singleton, forall_eq, List.length_append, List.length_take]
          omega
        | none =>
          dsimp only
          have hgrown : (out ++ (b :: chunk)).length ≤ MAX_RESPONSE_BYTES + READ_CHUNK_BYTES := by
            rw [List.length_append]
            omega
          split_ifs with hcap
          · intro n hn
            rcases List.mem_cons.mp hn with rfl | hn
            · exact hgrown
            · exact ih hrest hcap n hn
          · intro n hn
            rw [List.mem_singleton.mp hn]
            exact hgrown

/-- A write delivers the whole text or, with an error, a part from its beginning; a read returns the
line however it arrives, unless the cap stops it: never for a line within the cap, always for one
longer than the cap and a chunk. -/
theorem framing (d : Deadline) :
    (∀ attempts buf, (writeAllBefore d attempts buf).Sound d attempts buf) ∧
    (∀ attempts : List (Attempt (List UInt8)), (∀ a ∈ attempts, a.InChunk) →
      ∀ n ∈ (readLineBefore d attempts []).buffered, n ≤ MAX_RESPONSE_BYTES + READ_CHUNK_BYTES) ∧
    ∀ arrivals, Arrives d arrivals →
      let line := lineOf (streamOf arrivals)
      (line.length ≤ MAX_RESPONSE_BYTES →
        (readArrivals d arrivals).outcome = some (.ok (lossy line))) ∧
      (MAX_RESPONSE_BYTES + READ_CHUNK_BYTES ≤ line.length →
        (readArrivals d arrivals).outcome = some (.error capExceeded)) ∧
      ((readArrivals d arrivals).outcome = some (.ok (lossy line)) ∨
        (readArrivals d arrivals).outcome = some (.error capExceeded)) := by
  refine ⟨fun attempts buf => writeAllBefore_sound d attempts buf,
    fun attempts h => buffered_le d h (Nat.zero_le _), fun arrivals h => ?_⟩
  have hempty : ([] : List UInt8).length ≤ MAX_RESPONSE_BYTES := Nat.zero_le _
  have hspec := readLineBefore_spec h hempty
  rw [List.nil_append] at hspec
  refine ⟨fun hshort => ?_, fun hlong => ?_, ?_⟩
  · rcases hspec with ⟨hok, -⟩ | ⟨-, hcap⟩
    · exact hok
    · omega
  · rcases hspec with ⟨-, hcap⟩ | ⟨herror, -⟩
    · omega
    · exact herror
  · exact hspec.imp And.left And.left

/-- `hi` in two chunks with an interrupt between them. -/
theorem framing_hi :
    (readArrivals ⟨0, 1⟩ [.done [104], .interrupted, .wouldBlock 0, .done [105, newline, 33]]).outcome =
      some (.ok (lossy [104, 105])) :=
  ((framing ⟨0, 1⟩).2.2 [.done [104], .interrupted, .wouldBlock 0, .done [105, newline, 33]]
    (by simp [Arrives, Attempt.InChunk, Attempt.Breaks, READ_CHUNK_BYTES, Deadline.cutoff])).1
    (by decide)

theorem readLineBefore_fill (d : Deadline) {chunk : List UInt8} (hne : chunk ≠ [])
    (hfree : newline ∉ chunk) (rest : List (Attempt (List UInt8))) (k : Nat) {out : List UInt8}
    (hout : out.length + k * chunk.length ≤ MAX_RESPONSE_BYTES) :
    (readLineBefore d (List.replicate k (.done chunk) ++ rest) out).outcome =
      (readLineBefore d rest (out ++ (List.replicate k chunk).flatten)).outcome := by
  induction k generalizing out with
  | zero => simp
  | succ k ih =>
    have hnone : chunk.idxOf? newline = none := by simpa using hfree
    have hgrown : (out ++ chunk).length + k * chunk.length ≤ MAX_RESPONSE_BYTES := by
      rw [List.length_append]
      rw [Nat.succ_mul] at hout
      omega
    have hcap : (out ++ chunk).length ≤ MAX_RESPONSE_BYTES :=
      Nat.le_trans (Nat.le_add_right _ _) hgrown
    obtain ⟨b, tail, rfl⟩ := List.exists_cons_of_ne_nil hne
    rw [List.replicate_succ, List.cons_append, readLineBefore, hnone]
    dsimp only
    rw [if_pos hcap, ih hgrown, List.replicate_succ, List.flatten_cons, List.append_assoc]

def lateDeadline : Deadline := ⟨0, 5000000000⟩

/-- A chunk of the letter `a`. -/
def letters : List UInt8 := List.replicate READ_CHUNK_BYTES 97

theorem length_letters : letters.length = READ_CHUNK_BYTES := List.length_replicate

theorem newline_notMem_letters : newline ∉ letters := by
  rw [letters, List.mem_replicate]
  exact fun h => absurd h.2 (by decide)

theorem letters_ne_nil : letters ≠ [] := by
  have hpos : 0 < READ_CHUNK_BYTES := by decide
  refine List.ne_nil_of_length_pos ?_
  rw [length_letters]
  exact hpos

def fullChunks : Nat := MAX_RESPONSE_BYTES / READ_CHUNK_BYTES

theorem length_fullChunks : fullChunks * READ_CHUNK_BYTES = MAX_RESPONSE_BYTES := by
  have hdvd : READ_CHUNK_BYTES ∣ MAX_RESPONSE_BYTES := ⟨65536, by
    simp [MAX_RESPONSE_BYTES, READ_CHUNK_BYTES]⟩
  exact Nat.div_mul_cancel hdvd

theorem readLineBefore_full (rest : List (Attempt (List UInt8))) :
    (readLineBefore lateDeadline (List.replicate fullChunks (.done letters) ++ rest) []).outcome =
      (readLineBefore lateDeadline rest (List.replicate fullChunks letters).flatten).outcome := by
  have hsize : ([] : List UInt8).length + fullChunks * letters.length ≤ MAX_RESPONSE_BYTES := by
    rw [length_letters, length_fullChunks, List.length_nil, Nat.zero_add]
  have hfill :=
    readLineBefore_fill lateDeadline letters_ne_nil newline_notMem_letters rest fullChunks hsize
  rwa [List.nil_append] at hfill

theorem arrives_full {rest : List (Attempt (List UInt8))} (h : Arrives lateDeadline rest) :
    Arrives lateDeadline (List.replicate fullChunks (.done letters) ++ rest) := by
  intro a ha
  rcases List.mem_append.mp ha with ha | ha
  · rw [(List.mem_replicate.mp ha).2]
    exact ⟨Nat.le_of_eq length_letters, letters_ne_nil⟩
  · exact h a ha

/-- A line one byte longer than the cap: with its newline in one chunk with that byte it is read,
with the newline in a chunk of its own it is refused. -/
theorem chunking_decides : ∃ first second,
    Arrives lateDeadline first ∧ Arrives lateDeadline second ∧ streamOf first = streamOf second ∧
      (readArrivals lateDeadline first).outcome =
        some (.ok (lossy (lineOf (streamOf first)))) ∧
      (readArrivals lateDeadline second).outcome = some (.error capExceeded) := by
  have hfirst : Arrives lateDeadline (List.replicate fullChunks (.done letters) ++
      [.done [97, newline]]) :=
    arrives_full (by simp [Arrives, Attempt.InChunk, Attempt.Breaks, READ_CHUNK_BYTES])
  have hsecond : Arrives lateDeadline (List.replicate fullChunks (.done letters) ++
      [.done [97], .done [newline]]) :=
    arrives_full (by simp [Arrives, Attempt.InChunk, Attempt.Breaks, READ_CHUNK_BYTES])
  have hsame : streamOf (List.replicate fullChunks (.done letters) ++ [.done [97, newline]]) =
      streamOf (List.replicate fullChunks (.done letters) ++ [.done [97], .done [newline]]) := by
    simp [streamOf]
  refine ⟨_, _, hfirst, hsecond, hsame, ?_, ?_⟩
  · have hline : lineOf (streamOf (List.replicate fullChunks (.done letters) ++
        [.done [97, newline]])) = (List.replicate fullChunks letters).flatten ++ [97] := by
      have hstream : streamOf (List.replicate fullChunks (.done letters) ++
          [.done [97, newline]]) = (List.replicate fullChunks letters).flatten ++ [97, newline] := by
        simp [streamOf, List.flatMap_replicate]
      have hfree : newline ∉ (List.replicate fullChunks letters).flatten := by
        intro hin
        obtain ⟨l, hl, hmem⟩ := List.mem_flatten.mp hin
        rw [(List.mem_replicate.mp hl).2] at hmem
        exact newline_notMem_letters hmem
      rw [hstream, lineOf_append hfree]
      rfl
    rw [readArrivals, List.append_assoc, readLineBefore_full, hline]
    rfl
  · have hlong : ¬ ((List.replicate fullChunks letters).flatten ++ [97]).length ≤
        MAX_RESPONSE_BYTES := by
      rw [List.length_append, List.length_flatten, List.map_replicate,
        List.sum_replicate_nat, length_letters, length_fullChunks, List.length_singleton]
      omega
    have hnone : [(97 : UInt8)].idxOf? newline = none := by decide
    rw [readArrivals, List.append_assoc, readLineBefore_full, List.cons_append, readLineBefore,
      hnone]
    dsimp only
    rw [if_neg hlong]

end Travsr.Ipc
