import Travsr.Core.Text
import Travsr.Lib.PinnedRing
import Travsr.Lib.Utf8Lossy

namespace Travsr.PluginHost

open Travsr.Core.Text PinnedRing Utf8Lossy

def MAX_LINES : Nat := 64

def HEAD_LINES : Nat := 16

def MAX_LINE_BYTES : Nat := 8 * 1024

def newline : UInt8 := 10

def carriageReturn : UInt8 := 13

/-! ### The reader -/

/-- What is still to come of a stream: the bytes that each refill of the buffer brings. -/
abbrev Chunks := List (List UInt8)

/-- `take(limit).read_until(b'\n')`: what is read is put behind `out`. -/
def readUntil : Chunks → Nat → List UInt8 → List UInt8 × Chunks
  | [], _, out => (out, [])
  | chunk :: rest, limit, out =>
    let avail := chunk.take limit
    match avail.idxOf? newline with
    | some i => (out ++ avail.take (i + 1), chunk.drop (i + 1) :: rest)
    | none =>
      if chunk.length < limit then readUntil rest (limit - chunk.length) (out ++ avail)
      else (out ++ avail, chunk.drop limit :: rest)

def discardLine : Chunks → Chunks
  | [] => []
  | chunk :: rest =>
    match chunk.idxOf? newline with
    | some i => chunk.drop (i + 1) :: rest
    | none => discardLine rest

/-- The line read, with what is left of the stream; at its end there is none. -/
def readBoundedLine (chunks : Chunks) : Option (List UInt8 × Chunks) :=
  let (out, left) := readUntil chunks MAX_LINE_BYTES []
  if out = [] then none
  else if out.getLast? = some newline then some (out, left)
  else some (out, discardLine left)

/-- `raw[..end]`: the terminator goes, and a carriage return before it. -/
def stripTerminator (raw : List UInt8) : List UInt8 :=
  let line := if raw.getLast? = some newline then raw.dropLast else raw
  if line.getLast? = some carriageReturn then line.dropLast else line

def decodeLine (raw : List UInt8) : String := String.ofList (lossy (stripTerminator raw))

/-! ### What one read takes from the stream -/

def firstLine : List UInt8 → List UInt8
  | [] => []
  | b :: bs => if b = newline then [b] else b :: firstLine bs

theorem firstLine_isPrefix (bs : List UInt8) : firstLine bs <+: bs := by
  induction bs with
  | nil => exact List.prefix_rfl
  | cons b bs ih =>
    rw [firstLine]
    split
    · exact ⟨bs, rfl⟩
    · exact (List.prefix_cons_inj b).mpr ih

theorem firstLine_ne_nil {bs : List UInt8} (h : bs ≠ []) : firstLine bs ≠ [] := by
  cases bs with
  | nil => exact absurd rfl h
  | cons b bs =>
    rw [firstLine]
    split <;> simp

theorem firstLine_append {bs : List UInt8} (h : newline ∉ bs) (rest : List UInt8) :
    firstLine (bs ++ rest) = bs ++ firstLine rest := by
  induction bs with
  | nil => rfl
  | cons b bs ih =>
    have hb : b ≠ newline := fun heq => h (heq ▸ List.mem_cons_self)
    have hbs : newline ∉ bs := fun hmem => h (List.mem_cons_of_mem b hmem)
    rw [List.cons_append, firstLine, if_neg hb, ih hbs, List.cons_append]

theorem firstLine_terminated {bs : List UInt8} (h : newline ∉ bs) (rest : List UInt8) :
    firstLine (bs ++ newline :: rest) = bs ++ [newline] := by
  rw [firstLine_append h]
  simp [firstLine]

theorem getLast?_of_newline_mem {bs p : List UInt8} (hp : p <+: firstLine bs) (h : newline ∈ p) :
    p = firstLine bs ∧ p.getLast? = some newline := by
  induction bs generalizing p with
  | nil =>
    rw [List.prefix_nil.mp hp] at h
    simp at h
  | cons b bs ih =>
    cases p with
    | nil => simp at h
    | cons x p =>
      rw [firstLine] at hp ⊢
      split at hp
      · case isTrue hb =>
        obtain ⟨hx, hnil⟩ := List.cons_prefix_cons.mp hp
        rw [List.prefix_nil.mp hnil, if_pos hb, hx, hb]
        exact ⟨rfl, rfl⟩
      · case isFalse hb =>
        obtain ⟨hx, hp⟩ := List.cons_prefix_cons.mp hp
        have hmem : newline ∈ p := (List.mem_cons.mp h).resolve_left fun heq => hb (hx ▸ heq.symm)
        obtain ⟨heq, hlast⟩ := ih hp hmem
        rw [if_neg hb, hx, ← heq, List.getLast?_cons, hlast]
        exact ⟨rfl, rfl⟩

theorem split_of_idxOf? {bs : List UInt8} {i : Nat} (h : bs.idxOf? newline = some i) :
    newline ∉ bs.take i ∧ bs = bs.take i ++ newline :: bs.drop (i + 1) ∧ i < bs.length := by
  induction bs generalizing i with
  | nil => simp at h
  | cons b bs ih =>
    rw [List.idxOf?_cons] at h
    by_cases hb : b = newline
    · have hi : i = 0 := by simpa [hb, eq_comm] using h
      simp [hi, hb]
    · simp only [beq_iff_eq, hb, if_false, Option.map_eq_some_iff] at h
      obtain ⟨j, hj, rfl⟩ := h
      obtain ⟨hfree, hsplit, hlt⟩ := ih hj
      refine ⟨?_, ?_, ?_⟩
      · rw [List.take_succ_cons]
        exact List.not_mem_cons_of_ne_of_not_mem (Ne.symm hb) hfree
      · rw [List.take_succ_cons, List.drop_succ_cons, List.cons_append, ← hsplit]
      · simpa using hlt

theorem firstLine_of_idxOf? {bs : List UInt8} {i : Nat} (h : bs.idxOf? newline = some i)
    (rest : List UInt8) : firstLine (bs ++ rest) = bs.take (i + 1) := by
  obtain ⟨hfree, hsplit, hlt⟩ := split_of_idxOf? h
  have htake : bs.take (i + 1) = bs.take i ++ [newline] := by
    conv_lhs => rw [hsplit]
    rw [List.take_append]
    have hlen : (bs.take i).length = i := List.length_take_of_le (Nat.le_of_lt hlt)
    rw [hlen, List.take_of_length_le (by omega), Nat.add_sub_cancel_left]
    rfl
  conv_lhs => rw [hsplit]
  rw [List.append_assoc, List.cons_append, firstLine_terminated hfree, htake]

theorem readUntil_spec (chunks : Chunks) (limit : Nat) (out : List UInt8) :
    (readUntil chunks limit out).1 = out ++ (firstLine chunks.flatten).take limit ∧
      (readUntil chunks limit out).2.flatten =
        chunks.flatten.drop ((firstLine chunks.flatten).take limit).length := by
  induction chunks generalizing limit out with
  | nil => simp [readUntil, firstLine]
  | cons chunk rest ih =>
    have hchunk : chunk ++ rest.flatten = chunk.take limit ++ (chunk.drop limit ++ rest.flatten) := by
      rw [← List.append_assoc, List.take_append_drop]
    simp only [readUntil, List.flatten_cons]
    split
    · case h_1 i h =>
      -- the newline lies in what may be read
      obtain ⟨_, _, hlt⟩ := split_of_idxOf? h
      have hline : firstLine (chunk ++ rest.flatten) = (chunk.take limit).take (i + 1) := by
        rw [hchunk, firstLine_of_idxOf? h]
      rw [List.length_take] at hlt
      have hlen : ((chunk.take limit).take (i + 1)).length = i + 1 := by
        rw [List.length_take, List.length_take]
        omega
      have hwhole : (firstLine (chunk ++ rest.flatten)).take limit =
          (chunk.take limit).take (i + 1) := by
        rw [hline]
        exact List.take_of_length_le (by omega)
      rw [hwhole, hlen, List.flatten_cons, List.drop_append_of_le_length (by omega)]
      exact ⟨rfl, rfl⟩
    · case h_2 h =>
      have hfree : newline ∉ chunk.take limit := List.idxOf?_eq_none_iff.mp h
      split
      · case isTrue hlt =>
        have hall : chunk.take limit = chunk := List.take_of_length_le (Nat.le_of_lt hlt)
        rw [hall] at hfree ⊢
        obtain ⟨h₁, h₂⟩ := ih (limit - chunk.length) (out ++ chunk)
        have htake : (firstLine (chunk ++ rest.flatten)).take limit =
            chunk ++ (firstLine rest.flatten).take (limit - chunk.length) := by
          rw [firstLine_append hfree, List.take_append, hall]
        rw [h₁, h₂, htake, List.length_append, List.append_assoc]
        refine ⟨rfl, ?_⟩
        rw [← List.drop_drop, List.drop_left]
      · case isFalse hge =>
        have hlen : (chunk.take limit).length = limit :=
          List.length_take_of_le (Nat.le_of_not_lt hge)
        have htake : (firstLine (chunk ++ rest.flatten)).take limit = chunk.take limit := by
          rw [hchunk, firstLine_append hfree, List.take_append_of_le_length (by omega),
            List.take_of_length_le (by omega)]
        rw [htake, hlen, List.flatten_cons, List.drop_append_of_le_length (by omega)]
        exact ⟨rfl, rfl⟩

theorem flatten_discardLine (chunks : Chunks) :
    (discardLine chunks).flatten = chunks.flatten.drop (firstLine chunks.flatten).length := by
  induction chunks with
  | nil => rfl
  | cons chunk rest ih =>
    rw [discardLine, List.flatten_cons]
    split
    · case h_1 i h =>
      obtain ⟨_, _, hlt⟩ := split_of_idxOf? h
      have hlen : (chunk.take (i + 1)).length = i + 1 := List.length_take_of_le hlt
      rw [firstLine_of_idxOf? h, hlen, List.flatten_cons,
        List.drop_append_of_le_length (by omega)]
    · case h_2 h =>
      have hfree : newline ∉ chunk := List.idxOf?_eq_none_iff.mp h
      rw [firstLine_append hfree, List.length_append, ← List.drop_drop, List.drop_left, ih]

theorem readBoundedLine_nil {chunks : Chunks} (h : chunks.flatten = []) :
    readBoundedLine chunks = none := by
  obtain ⟨hout, _⟩ := readUntil_spec chunks MAX_LINE_BYTES []
  simp [readBoundedLine, hout, h, firstLine]

theorem readBoundedLine_spec {chunks : Chunks} (h : chunks.flatten ≠ []) :
    ∃ left, readBoundedLine chunks =
        some ((firstLine chunks.flatten).take MAX_LINE_BYTES, left) ∧
      left.flatten = chunks.flatten.drop (firstLine chunks.flatten).length := by
  obtain ⟨hout, hleft⟩ := readUntil_spec chunks MAX_LINE_BYTES []
  rw [List.nil_append] at hout
  have hne : (firstLine chunks.flatten).take MAX_LINE_BYTES ≠ [] := by
    have := List.length_pos_of_ne_nil (firstLine_ne_nil h)
    apply List.ne_nil_of_length_pos
    rw [List.length_take, MAX_LINE_BYTES]
    omega
  simp only [readBoundedLine, hout, if_neg hne]
  have hpre : (firstLine chunks.flatten).take MAX_LINE_BYTES <+: firstLine chunks.flatten :=
    List.take_prefix _ _
  split
  · case isTrue hlast =>
    have hmem := List.mem_of_getLast? hlast
    rw [(getLast?_of_newline_mem hpre hmem).1] at hleft
    exact ⟨_, rfl, hleft⟩
  · case isFalse hlast =>
    refine ⟨_, rfl, ?_⟩
    have hfree : newline ∉ (firstLine chunks.flatten).take MAX_LINE_BYTES :=
      fun hmem => hlast (getLast?_of_newline_mem hpre hmem).2
    -- the cut line goes on in what is left
    obtain ⟨more, hmore⟩ := hpre.trans (firstLine_isPrefix chunks.flatten)
    have hrest : (readUntil chunks MAX_LINE_BYTES []).2.flatten = more := by
      rw [hleft]
      exact (congrArg (List.drop _) hmore).symm.trans List.drop_left
    have hline : firstLine chunks.flatten =
        (firstLine chunks.flatten).take MAX_LINE_BYTES ++ firstLine more := by
      conv_lhs => rw [← hmore]
      rw [firstLine_append hfree]
    rw [flatten_discardLine, hrest]
    conv_rhs => rw [hline]
    rw [List.length_append, ← List.drop_drop, ← hleft, hrest]

/-! ### Draining the stream -/

def rawLines (chunks : Chunks) : List (List UInt8) :=
  match _h : readBoundedLine chunks with
  | none => []
  | some (raw, left) => raw :: rawLines left
termination_by chunks.flatten.length
decreasing_by
  have h := _h
  have hne : chunks.flatten ≠ [] := fun hnil => by simp [readBoundedLine_nil hnil] at h
  obtain ⟨left', hread, hleft⟩ := readBoundedLine_spec hne
  rw [hread] at h
  cases h
  have := List.length_pos_of_ne_nil (firstLine_ne_nil hne)
  have := List.length_pos_of_ne_nil hne
  rw [hleft, List.length_drop]
  omega

def drain (chunks : Chunks) : PinnedRing.Ring String :=
  ((rawLines chunks).map decodeLine).foldl (push MAX_LINES HEAD_LINES) PinnedRing.empty

/-- `StderrRing::tail`. -/
def tail (r : PinnedRing.Ring String) : String :=
  "\n".intercalate (r.lines.take HEAD_LINES ++
    (if 0 < r.elided then ["... " ++ toString r.elided ++ " lines elided ..."] else []) ++
    r.lines.drop HEAD_LINES)

/-! ### The lines of a stream -/

/-- The lines that a newline or the end terminates, without their newlines. -/
def streamLines : List UInt8 → List (List UInt8)
  | [] => []
  | b :: bs =>
    if b = newline then [] :: streamLines bs
    else (b :: (streamLines bs).headD []) :: (streamLines bs).tail

theorem streamLines_terminated {line : List UInt8} (h : newline ∉ line) (rest : List UInt8) :
    streamLines (line ++ newline :: rest) = line :: streamLines rest := by
  induction line with
  | nil => simp [streamLines]
  | cons b line ih =>
    have hb : b ≠ newline := fun heq => h (heq ▸ List.mem_cons_self)
    have hline : newline ∉ line := fun hmem => h (List.mem_cons_of_mem b hmem)
    rw [List.cons_append, streamLines, if_neg hb, ih hline]
    rfl

theorem streamLines_last {line : List UInt8} (h : newline ∉ line) (hne : line ≠ []) :
    streamLines line = [line] := by
  induction line with
  | nil => exact absurd rfl hne
  | cons b line ih =>
    have hb : b ≠ newline := fun heq => h (heq ▸ List.mem_cons_self)
    have hline : newline ∉ line := fun hmem => h (List.mem_cons_of_mem b hmem)
    rw [streamLines, if_neg hb]
    by_cases hnil : line = []
    · rw [hnil]
      rfl
    · rw [ih hline hnil]
      rfl

theorem first_or_last (bs : List UInt8) :
    (∃ line rest, newline ∉ line ∧ bs = line ++ newline :: rest) ∨ newline ∉ bs := by
  by_cases h : newline ∈ bs
  · obtain ⟨line, rest, hbs, hfree⟩ := List.eq_append_cons_of_mem h
    exact .inl ⟨line, rest, hfree, hbs⟩
  · exact .inr h

/-- What is decoded of a line: its first bytes, without a carriage return at their end. -/
def keptPrefix (line : List UInt8) : List UInt8 :=
  if (line.take MAX_LINE_BYTES).getLast? = some carriageReturn then
    (line.take MAX_LINE_BYTES).dropLast
  else line.take MAX_LINE_BYTES

theorem keptPrefix_isPrefix (line : List UInt8) : keptPrefix line <+: line := by
  have htake := List.take_prefix MAX_LINE_BYTES line
  rw [keptPrefix]
  split
  · exact (List.dropLast_prefix _).trans htake
  · exact htake

theorem strip_take {line : List UInt8} (h : newline ∉ line) :
    stripTerminator (line.take MAX_LINE_BYTES) = keptPrefix line := by
  have hlast : (line.take MAX_LINE_BYTES).getLast? ≠ some newline :=
    fun heq => h (List.mem_of_mem_take (List.mem_of_getLast? heq))
  simp only [stripTerminator, if_neg hlast, keptPrefix]

theorem strip_terminated {line : List UInt8} (h : newline ∉ line) :
    stripTerminator ((line ++ [newline]).take MAX_LINE_BYTES) = keptPrefix line := by
  by_cases hlt : line.length < MAX_LINE_BYTES
  · have hall : (line ++ [newline]).take MAX_LINE_BYTES = line ++ [newline] := by
      apply List.take_of_length_le
      rw [List.length_append]
      exact hlt
    have hline : line.take MAX_LINE_BYTES = line := List.take_of_length_le (Nat.le_of_lt hlt)
    simp only [hall, stripTerminator, List.getLast?_concat, if_true, List.dropLast_concat,
      keptPrefix, hline]
  · rw [List.take_append_of_le_length (Nat.le_of_not_lt hlt), strip_take h]

theorem decode_rawLines (chunks : Chunks) :
    (rawLines chunks).map decodeLine =
      (streamLines chunks.flatten).map fun line => String.ofList (lossy (keptPrefix line)) := by
  fun_induction rawLines chunks with
  | case1 chunks h =>
    have hnil : chunks.flatten = [] := by
      by_contra hne
      obtain ⟨left, hread, _⟩ := readBoundedLine_spec hne
      rw [hread] at h
      cases h
    rw [hnil]
    rfl
  | case2 chunks raw left h ih =>
    have hne : chunks.flatten ≠ [] := by
      intro hnil
      rw [readBoundedLine_nil hnil] at h
      cases h
    obtain ⟨left', hread, hleft⟩ := readBoundedLine_spec hne
    rw [hread] at h
    obtain ⟨rfl, rfl⟩ := Prod.mk.inj (Option.some.inj h)
    rw [List.map_cons, ih, hleft, decodeLine]
    rcases first_or_last chunks.flatten with ⟨line, rest, hfree, hbytes⟩ | hfree
    · have hdrop : (line ++ newline :: rest).drop (line ++ [newline]).length = rest := by
        have := @List.drop_left _ (line ++ [newline]) rest
        rwa [List.append_assoc] at this
      rw [hbytes, firstLine_terminated hfree, strip_terminated hfree, hdrop,
        streamLines_terminated hfree, List.map_cons]
    · have hline : firstLine chunks.flatten = chunks.flatten := by
        have := firstLine_append hfree []
        rwa [List.append_nil, firstLine, List.append_nil] at this
      rw [hline, strip_take hfree, List.drop_length, streamLines_last hfree hne]
      rfl

theorem drain_eq (chunks : Chunks) :
    drain chunks =
      ⟨(ends MAX_LINES HEAD_LINES (streamLines chunks.flatten)).map
          fun line => String.ofList (lossy (keptPrefix line)),
        (streamLines chunks.flatten).length - MAX_LINES⟩ := by
  rw [drain, decode_rawLines, foldl_push (by decide), ends_map, List.length_map]

theorem byteLen_ofList (cs : List Char) :
    byteLen (String.ofList cs) = (cs.map Char.utf8Size).sum := by
  have hlen : byteLen (String.ofList cs) = (Utf8Text.encode cs).length := by
    have : (String.ofList cs).toByteArray.size = (Utf8Text.encode cs).toByteArray.size := by
      rw [Utf8Text.toByteArray_encode, String.toByteArray_ofList]
    rwa [List.size_toByteArray] at this
  rw [hlen, Utf8Text.encode, List.length_flatMap]
  simp

/-! ### What the ring holds -/

/-- The ring is bounded, counts every line of the stream, and holds the first and the last ones,
each decoded from a prefix of it. -/
structure KeepsBothEnds (chunks : Chunks) : Prop where
  count : (drain chunks).lines.length ≤ MAX_LINES
  bytes : ∀ line ∈ (drain chunks).lines, byteLen line ≤ MAX_LINE_BYTES
  counted : (drain chunks).lines.length + (drain chunks).elided =
    (streamLines chunks.flatten).length
  kept : ∃ prefixes, List.Forall₂ (· <+: ·) prefixes
      (ends MAX_LINES HEAD_LINES (streamLines chunks.flatten)) ∧
    (drain chunks).lines = prefixes.map fun p => String.ofList (lossy p)

theorem byteLen_decoded (line : List UInt8) :
    byteLen (String.ofList (lossy (keptPrefix line))) =
      (keptPrefix line).length + growth (keptPrefix line) := by
  rw [byteLen_ofList, size_lossy]

theorem keepsBothEnds_of_bound {chunks : Chunks}
    (h : ∀ line ∈ ends MAX_LINES HEAD_LINES (streamLines chunks.flatten),
      (keptPrefix line).length + growth (keptPrefix line) ≤ MAX_LINE_BYTES) :
    KeepsBothEnds chunks := by
  have hhead : HEAD_LINES ≤ MAX_LINES := by decide
  have hlen := length_ends hhead (streamLines chunks.flatten)
  refine ⟨?_, ?_, ?_, ?_⟩
  · rw [drain_eq, List.length_map, hlen]
    exact Nat.min_le_left _ _
  · intro line hline
    rw [drain_eq] at hline
    obtain ⟨l, hl, rfl⟩ := List.mem_map.mp hline
    rw [byteLen_decoded]
    exact h l hl
  · rw [drain_eq, List.length_map, hlen]
    show min MAX_LINES _ + (_ - MAX_LINES) = _
    omega
  · refine ⟨(ends MAX_LINES HEAD_LINES (streamLines chunks.flatten)).map keptPrefix, ?_, ?_⟩
    · rw [List.forall₂_map_left_iff]
      exact List.forall₂_same.mpr fun line _ => keptPrefix_isPrefix line
    · rw [drain_eq, List.map_map]
      rfl

/-- The ring keeps its bounds exactly when no kept line grows past its bound by its broken bytes:
each maximal run of them is at most three bytes long and is replaced by three. -/
theorem keepsBothEnds_iff (chunks : Chunks) :
    KeepsBothEnds chunks ↔
      ∀ line ∈ ends MAX_LINES HEAD_LINES (streamLines chunks.flatten),
        (keptPrefix line).length + growth (keptPrefix line) ≤ MAX_LINE_BYTES := by
  constructor
  · intro h line hline
    rw [← byteLen_decoded]
    apply h.bytes
    rw [drain_eq]
    exact List.mem_map_of_mem hline
  · exact keepsBothEnds_of_bound

/-- What is shown of a stream: all its lines, or both ends of a longer one and between them how many
lines are not there. -/
theorem tail_drain (chunks : Chunks) :
    let decoded := (streamLines chunks.flatten).map fun line => String.ofList (lossy (keptPrefix line))
    tail (drain chunks) =
      "\n".intercalate (if decoded.length ≤ MAX_LINES then decoded else
        decoded.take HEAD_LINES ++ ["... " ++ toString (decoded.length - MAX_LINES) ++ " lines elided ..."] ++
          decoded.drop (decoded.length - (MAX_LINES - HEAD_LINES))) := by
  dsimp only
  rw [drain_eq, ← ends_map, List.length_map]
  generalize hdecoded : (streamLines chunks.flatten).map
    (fun line => String.ofList (lossy (keptPrefix line))) = decoded
  have hlen : (streamLines chunks.flatten).length = decoded.length := by rw [← hdecoded, List.length_map]
  rw [hlen, tail, ends]
  by_cases h : decoded.length ≤ MAX_LINES
  · have hnone : ¬ 0 < decoded.length - MAX_LINES := by omega
    rw [if_pos h, if_neg hnone, if_pos h, List.append_nil, List.take_append_drop]
  · have hsome : 0 < decoded.length - MAX_LINES := by omega
    have hhead : HEAD_LINES ≤ MAX_LINES := by decide
    have htake : (decoded.take HEAD_LINES).length = HEAD_LINES := by
      rw [List.length_take]
      omega
    rw [if_neg h, if_pos hsome, if_neg h, List.take_left' htake, List.drop_left' htake]

theorem growth_replicate (n : Nat) : growth (List.replicate n 0xFF) = 2 * n := by
  induction n with
  | zero => simp [growth, pieces]
  | succ n ih =>
    rw [growth] at ih
    rw [List.replicate_succ, growth, pieces_stray (by decide), List.map_cons, List.sum_cons, ih]
    simp [Piece.growth]
    omega

theorem stray_line_outgrows {n : Nat} (hpos : 0 < n) (hfit : n ≤ MAX_LINE_BYTES)
    (hout : MAX_LINE_BYTES < 3 * n) : ¬ KeepsBothEnds [List.replicate n 0xFF] := by
  intro h
  have hfree : newline ∉ List.replicate n (0xFF : UInt8) := by
    intro hmem
    exact absurd (List.eq_of_mem_replicate hmem) (by decide)
  have hne : List.replicate n (0xFF : UInt8) ≠ [] := by
    simpa using Nat.ne_of_gt hpos
  have hlines : streamLines [List.replicate n (0xFF : UInt8)].flatten =
      [List.replicate n 0xFF] := by
    rw [List.flatten_singleton]
    exact streamLines_last hfree hne
  have hkept : keptPrefix (List.replicate n 0xFF) = List.replicate n 0xFF := by
    have hall : (List.replicate n (0xFF : UInt8)).take MAX_LINE_BYTES = List.replicate n 0xFF :=
      List.take_of_length_le (by simpa using hfit)
    have hlast : (List.replicate n (0xFF : UInt8)).getLast? ≠ some carriageReturn := by
      intro heq
      exact absurd (List.eq_of_mem_replicate (List.mem_of_getLast? heq)) (by decide)
    rw [keptPrefix, hall, if_neg hlast]
  have hin : String.ofList (lossy (keptPrefix (List.replicate n 0xFF))) ∈
      (drain [List.replicate n 0xFF]).lines := by
    rw [drain_eq, hlines]
    exact List.mem_map_of_mem List.mem_cons_self
  have hle := h.bytes _ hin
  rw [byteLen_decoded, hkept, growth_replicate, List.length_replicate] at hle
  omega

/-- A line of 2731 bytes 0xFF becomes 8193 bytes of text. -/
theorem stray_bytes_outgrow_bound : ¬ KeepsBothEnds [List.replicate 2731 0xFF] :=
  stray_line_outgrows (by decide) (by decide) (by decide)

end Travsr.PluginHost
