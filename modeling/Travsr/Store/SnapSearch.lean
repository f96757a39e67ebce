import Travsr.Store.Snap

namespace Travsr.Store

/-! ### The search with the machine's arithmetic

`none` is a panic, or a cast that changes the value. Additions of `usize` wrap, as they do in the
release build. -/

namespace Snap

def i64 (x : Int) : Option Int := if -(2 ^ 63) ≤ x ∧ x < 2 ^ 63 then some x else none

/-- The absolute value of a difference; it overflows at the least number. -/
def abs64 (x : Int) : Option Int := (i64 x).bind fun y => i64 y.natAbs

/-- `x as usize`. -/
def asUsize (x : Int) : Option Nat := if 0 ≤ x ∧ x < 2 ^ 64 then some x.toNat else none

/-- `x as u32`. -/
def asU32 (x : Int) : Option Nat := if 0 ≤ x ∧ x < 2 ^ 32 then some x.toNat else none

def usizeAdd (a b : Nat) : Nat := (a + b) % 2 ^ 64

/-- `&bytes[a..b]`. -/
def slice (bytes : List UInt8) (a b : Nat) : Option (List UInt8) :=
  if a ≤ b ∧ b ≤ bytes.length then some ((bytes.drop a).take (b - a)) else none

/-- `before_ok`: no word runs into the name. -/
def beforeOk (bytes : List UInt8) (col : Nat) : Option Bool :=
  if col = 0 then some true else (bytes[col - 1]?).map fun b => !isWordByte b

/-- `after_ok`: the name does not run on. -/
def afterOk (bytes : List UInt8) (after : Nat) : Option Bool :=
  if bytes.length ≤ after then some true else (bytes[after]?).map fun b => !isWordByte b

/-- `occurrence_at_col`. -/
def occurrenceAtCol (line name : List Char) (col : Nat) : Option Bool :=
  let bytes := utf8 line
  let nb := utf8 name
  if nb.isEmpty || bytes.length < usizeAdd col nb.length || !isCharBoundary bytes col then some false
  else do
    let word ← slice bytes col (usizeAdd col nb.length)
    if word != nb then return false
    let before ← beforeOk bytes col
    let after ← afterOk bytes (usizeAdd col nb.length)
    return before && after

/-- `token_starts_at`. -/
def tokenStartsAt (line : List Char) (col : Nat) : Option Bool :=
  let bytes := utf8 line
  if bytes.length ≤ col || !isCharBoundary bytes col then some false
  else do
    let b ← bytes[col]?
    if !isWordByte b then return false
    if col = 0 then return true
    let prev ← bytes[col - 1]?
    return !isWordByte prev

section

variable (lines : List (List Char)) (name : List Char) (col : Nat) (estimate lo hi : Int)

def hit (l : Int) : Option Bool :=
  if lo ≤ l ∧ l ≤ hi then do
    let index ← asUsize (← i64 (l - 1))
    match lines[index]? with
    | some line => occurrenceAtCol line name col
    | none => some false
  else some false

def ring (r : Nat) : Option (Option Nat) := do
  let down ← i64 (estimate + r)
  if ← hit lines name col lo hi down then return some (← asU32 down)
  if 0 < r then
    let up ← i64 (estimate - r)
    if ← hit lines name col lo hi up then return some (← asU32 up)
  return none

def tokenAtEstimate : Option (Option Nat) :=
  if lo ≤ estimate ∧ estimate ≤ hi then do
    let index ← asUsize (← i64 (estimate - 1))
    match lines[index]? with
    | some line => if ← tokenStartsAt line col then return some (← asU32 estimate) else return none
    | none => return none
  else some none

end

/-- `snap_changed_occurrence_line`. -/
def snapChangedOccurrenceLine (lines : List (List Char)) (name : List Char) (col : Nat)
    (estimate spanStart spanEnd : Int) : Option (Option Nat) := do
  let lo := max spanStart 1
  let hi := max spanEnd lo
  let below ← abs64 (estimate - lo)
  let above ← abs64 (hi - estimate)
  let maxRadius := min (max below above) maxSnapRadius
  match ← (List.range (maxRadius.toNat + 1)).findSomeM? (ring lines name col estimate lo hi) with
  | some l => return some l
  | none => tokenAtEstimate lines col estimate lo hi

end Snap

/-- What the machine promises of a buffer and a name: no text fills half of its addresses. -/
structure Snap.Fits (lines : List (List Char)) (name : List Char) : Prop where
  lines : ∀ line ∈ lines, (utf8 line).length < 2 ^ 63
  name : (utf8 name).length < 2 ^ 63

/-! ### Nothing is out of range -/

namespace Snap

theorem le_of_isCharBoundary {line : List Char} {col : Nat}
    (h : isCharBoundary (utf8 line) col = true) : col ≤ (utf8 line).length := by
  rw [utf8_eq] at h ⊢
  exact ((isCharBoundary_iff line col).mp h).le

theorem map_getElem {bytes : List UInt8} {i : Nat} (hi : i < bytes.length) :
    ((bytes[i]?).map fun b => !isWordByte b) = some (!(bytes[i]?).any isWordByte) := by
  rw [List.getElem?_eq_getElem hi]
  rfl

theorem beforeOk_eq {bytes : List UInt8} {col : Nat} (hcol : col ≤ bytes.length) :
    beforeOk bytes col = some (decide (col = 0) || !(bytes[col - 1]?).any isWordByte) := by
  by_cases hzero : col = 0
  · simp [beforeOk, hzero]
  · rw [beforeOk, if_neg hzero, map_getElem (by omega)]
    simp [hzero]

theorem afterOk_eq (bytes : List UInt8) (after : Nat) :
    afterOk bytes after =
      some (decide (bytes.length ≤ after) || !(bytes[after]?).any isWordByte) := by
  by_cases hend : bytes.length ≤ after
  · simp [afterOk, hend]
  · rw [afterOk, if_neg hend, map_getElem (by omega)]
    simp [hend]

theorem occurrenceAtCol_eq {line name : List Char} {col : Nat}
    (hline : (utf8 line).length < 2 ^ 63) (hname : (utf8 name).length < 2 ^ 63) :
    occurrenceAtCol line name col = some (Store.occurrenceAtCol line name col) := by
  cases hboundary : isCharBoundary (utf8 line) col with
  | false => simp [occurrenceAtCol, Store.occurrenceAtCol, hboundary]
  | true =>
    have hle := le_of_isCharBoundary hboundary
    have hadd : usizeAdd col (utf8 name).length = col + (utf8 name).length :=
      Nat.mod_eq_of_lt (by omega)
    simp only [occurrenceAtCol, Store.occurrenceAtCol, hadd, hboundary]
    by_cases hguard : ((utf8 name).isEmpty ||
        decide ((utf8 line).length < col + (utf8 name).length) || !true) = true
    · rw [if_pos hguard, if_pos hguard]
    · rw [if_neg hguard, if_neg hguard]
      have hroom : col + (utf8 name).length ≤ (utf8 line).length := by
        simp only [Bool.not_true, Bool.or_false, Bool.or_eq_true, decide_eq_true_eq,
          not_or] at hguard
        omega
      have hpos : 0 < (utf8 name).length := by
        apply List.length_pos_of_ne_nil
        intro hnil
        simp [hnil] at hguard
      have hslice : slice (utf8 line) col (col + (utf8 name).length) =
          some (((utf8 line).drop col).take (utf8 name).length) := by
        rw [slice, if_pos ⟨by omega, hroom⟩, Nat.add_sub_cancel_left]
      rw [hslice, beforeOk_eq (by omega), afterOk_eq]
      by_cases hword : (((utf8 line).drop col).take (utf8 name).length != utf8 name) = true
      · simp only [Option.bind_eq_bind, Option.bind_some]
        rw [if_pos hword, if_pos hword]
        rfl
      · simp only [Option.bind_eq_bind, Option.bind_some]
        rw [if_neg hword, if_neg hword]
        rfl

theorem tokenStartsAt_eq (line : List Char) (col : Nat) :
    tokenStartsAt line col = some (Store.tokenStartsAt line col) := by
  simp only [tokenStartsAt, Store.tokenStartsAt]
  by_cases hguard : (decide ((utf8 line).length ≤ col) || !isCharBoundary (utf8 line) col) = true
  · rw [if_pos hguard, if_pos hguard]
  · rw [if_neg hguard, if_neg hguard]
    have hroom : col < (utf8 line).length := by
      simp only [Bool.or_eq_true, decide_eq_true_eq, not_or] at hguard
      omega
    rw [List.getElem?_eq_getElem hroom]
    by_cases hzero : col = 0
    · subst hzero
      cases hbyte : isWordByte (utf8 line)[0] <;> simp [hbyte]
    · have hprev : (utf8 line)[col - 1]? = some (utf8 line)[col - 1] :=
        List.getElem?_eq_getElem (by omega)
      rw [hprev]
      cases hbyte : isWordByte (utf8 line)[col] <;> simp [hzero, hbyte]

theorem i64_eq {x : Int} (hlow : -(2 ^ 63) ≤ x) (hhigh : x < 2 ^ 63) : i64 x = some x :=
  if_pos ⟨hlow, hhigh⟩

theorem asUsize_eq {x : Int} (hlow : 0 ≤ x) (hhigh : x < 2 ^ 64) : asUsize x = some x.toNat :=
  if_pos ⟨hlow, hhigh⟩

theorem asU32_eq {x : Int} (hlow : 0 ≤ x) (hhigh : x < 2 ^ 32) : asU32 x = some x.toNat :=
  if_pos ⟨hlow, hhigh⟩

def isHit (lines : List (List Char)) (name : List Char) (col : Nat) (lo hi l : Int) : Bool :=
  lo ≤ l && l ≤ hi && (lineAt lines l).any fun line => Store.occurrenceAtCol line name col

section

variable {lines : List (List Char)} {name : List Char} {col : Nat} {estimate lo hi l : Int}

theorem hit_eq (hfits : Fits lines name) (hlo : 1 ≤ lo) (hhi : hi < 2 ^ 31) :
    hit lines name col lo hi l = some (isHit lines name col lo hi l) := by
  by_cases hspan : lo ≤ l ∧ l ≤ hi
  · have hindex : (i64 (l - 1)).bind asUsize = some (l - 1).toNat := by
      rw [i64_eq (by omega) (by omega), Option.bind_some, asUsize_eq (by omega) (by omega)]
    have hstep : hit lines name col lo hi l = ((i64 (l - 1)).bind asUsize).bind fun index =>
        match lines[index]? with
        | some line => occurrenceAtCol line name col
        | none => some false := by
      rw [hit, if_pos hspan, Option.bind_assoc]
      rfl
    rw [hstep, hindex, Option.bind_some]
    have hpure : isHit lines name col lo hi l =
        (lines[(l - 1).toNat]?).any fun line => Store.occurrenceAtCol line name col := by
      rw [isHit, lineAt, decide_eq_true hspan.1, decide_eq_true hspan.2]
      rfl
    rw [hpure]
    cases hline : lines[(l - 1).toNat]? with
    | none => rfl
    | some line =>
      have hmem : line ∈ lines := List.mem_of_getElem? hline
      exact occurrenceAtCol_eq (hfits.lines line hmem) hfits.name
  · rw [hit, if_neg hspan]
    have hout : (decide (lo ≤ l) && decide (l ≤ hi)) = false := by
      simpa [Bool.and_eq_false_iff] using hspan
    simp [isHit, hout]

theorem isHit_span (h : isHit lines name col lo hi l = true) : lo ≤ l ∧ l ≤ hi := by
  simp only [isHit, Bool.and_eq_true, decide_eq_true_eq] at h
  exact h.1

theorem ring_eq (hfits : Fits lines name) (hlo : 1 ≤ lo) (hhi : hi < 2 ^ 31)
    (hlow : -(2 ^ 62) ≤ estimate) (hhigh : estimate < 2 ^ 31) {r : Nat} (hr : r ≤ maxSnapRadius) :
    ring lines name col estimate lo hi r =
      some ((Nearest.ring (isHit lines name col lo hi) estimate r).map Int.toNat) := by
  have hradius : maxSnapRadius = 512 := rfl
  have hdown : i64 (estimate + r) = some (estimate + r) := i64_eq (by omega) (by omega)
  have hup : i64 (estimate - r) = some (estimate - r) := i64_eq (by omega) (by omega)
  simp only [ring, hdown, hup, hit_eq hfits hlo hhi, Option.bind_eq_bind, Option.bind_some,
    Nearest.ring]
  by_cases hfirst : isHit lines name col lo hi (estimate + r) = true
  · have hspan := isHit_span hfirst
    simp [hfirst, asU32_eq (show 0 ≤ estimate + r by omega) (by omega)]
  · by_cases hpos : 0 < r
    · by_cases hsecond : isHit lines name col lo hi (estimate - r) = true
      · have hspan := isHit_span hsecond
        simp [hfirst, hpos, hsecond, asU32_eq (show 0 ≤ estimate - r by omega) (by omega)]
      · simp [hfirst, hpos, hsecond]
    · simp [hfirst, hpos]

theorem tokenAtEstimate_eq (hlo : 1 ≤ lo) (hhi : hi < 2 ^ 31) :
    tokenAtEstimate lines col estimate lo hi =
      some (if lo ≤ estimate ∧ estimate ≤ hi ∧
          (lineAt lines estimate).any (Store.tokenStartsAt · col) then some estimate.toNat
        else none) := by
  by_cases hspan : lo ≤ estimate ∧ estimate ≤ hi
  · have hindex : i64 (estimate - 1) = some (estimate - 1) := i64_eq (by omega) (by omega)
    have hcast : asUsize (estimate - 1) = some (estimate - 1).toNat :=
      asUsize_eq (by omega) (by omega)
    have hnum : asU32 estimate = some estimate.toNat := asU32_eq (by omega) (by omega)
    have hline : lineAt lines estimate = lines[(estimate - 1).toNat]? := rfl
    simp only [tokenAtEstimate, if_pos hspan, hindex, hcast, Option.bind_eq_bind,
      Option.bind_some, hnum, tokenStartsAt_eq, hline]
    generalize lines[(estimate - 1).toNat]? = found
    cases found with
    | none => simp
    | some line => cases htoken : Store.tokenStartsAt line col <;> simp [htoken, hspan]
  · rw [tokenAtEstimate, if_neg hspan, if_neg (fun h => hspan ⟨h.1, h.2.1⟩)]

theorem findSomeM_eq {α β : Type} {f : α → Option (Option β)} {g : α → Option β} {as : List α}
    (h : ∀ a ∈ as, f a = some (g a)) : as.findSomeM? f = some (as.findSome? g) := by
  induction as with
  | nil => rfl
  | cons a as ih =>
    rw [List.findSomeM?, h a (List.mem_cons_self ..), List.findSome?]
    cases g a with
    | some b => rfl
    | none => exact ih fun b hb => h b (List.mem_cons_of_mem a hb)

theorem findSome_map {α β γ : Type} (f : α → Option β) (g : β → γ) (as : List α) :
    as.findSome? (fun a => (f a).map g) = (as.findSome? f).map g := by
  induction as with
  | nil => rfl
  | cons a as ih =>
    rw [List.findSome?, List.findSome?]
    cases f a with
    | some b => rfl
    | none => exact ih

def radius (estimate lo hi : Int) : Nat :=
  min (max (estimate - lo).natAbs (hi - estimate).natAbs) maxSnapRadius

theorem snap_eq (lines : List (List Char)) (name : List Char) (col : Nat)
    (estimate spanStart spanEnd : Int) :
    Store.snapChangedOccurrenceLine lines name col estimate spanStart spanEnd =
      match Nearest.search
          (isHit lines name col (max spanStart 1) (max spanEnd (max spanStart 1))) estimate
          (radius estimate (max spanStart 1) (max spanEnd (max spanStart 1))) with
      | some l => some l.toNat
      | none =>
        if max spanStart 1 ≤ estimate ∧ estimate ≤ max spanEnd (max spanStart 1) ∧
            (lineAt lines estimate).any (Store.tokenStartsAt · col) then some estimate.toNat
        else none := rfl

end

section

variable {lines : List (List Char)} {name : List Char} {col : Nat} {estimate lo hi : Int}

theorem radius_le (estimate lo hi : Int) : radius estimate lo hi ≤ maxSnapRadius := min_le_right _ _

theorem loop_eq (hfits : Fits lines name) (hlo : 1 ≤ lo) (hhi : hi < 2 ^ 31)
    (hlow : -(2 ^ 62) ≤ estimate) (hhigh : estimate < 2 ^ 31) :
    (List.range (radius estimate lo hi + 1)).findSomeM? (ring lines name col estimate lo hi) =
      some ((Nearest.search (isHit lines name col lo hi) estimate
        (radius estimate lo hi)).map Int.toNat) := by
  have hring : ∀ r ∈ List.range (radius estimate lo hi + 1), ring lines name col estimate lo hi r =
      some ((Nearest.ring (isHit lines name col lo hi) estimate r).map Int.toNat) := by
    intro r hr
    have hle := radius_le estimate lo hi
    have hlt := List.mem_range.mp hr
    exact ring_eq hfits hlo hhi hlow hhigh (by omega)
  rw [findSomeM_eq hring, findSome_map, Nearest.search]

theorem abs64_eq {x : Int} (hlow : -(2 ^ 63) < x) (hhigh : x < 2 ^ 63) :
    abs64 x = some (x.natAbs : Int) := by
  rw [abs64, i64_eq (by omega) hhigh, Option.bind_some, i64_eq (by omega) (by omega)]

end

theorem snapChangedOccurrenceLine_eq {lines : List (List Char)} {name : List Char} {col : Nat}
    {estimate spanStart spanEnd : Int} (hfits : Fits lines name)
    (hlow : -(2 ^ 62) ≤ estimate) (hhigh : estimate < 2 ^ 31) (hstart : spanStart < 2 ^ 31)
    (hend : spanEnd < 2 ^ 31) :
    snapChangedOccurrenceLine lines name col estimate spanStart spanEnd =
      some (Store.snapChangedOccurrenceLine lines name col estimate spanStart spanEnd) := by
  have hlo : 1 ≤ max spanStart 1 := le_max_right _ _
  have hlo' : max spanStart 1 < 2 ^ 31 := by omega
  have hhi : max spanEnd (max spanStart 1) < 2 ^ 31 := by omega
  have hhi' : 1 ≤ max spanEnd (max spanStart 1) := by omega
  rw [snap_eq, snapChangedOccurrenceLine]
  generalize max spanEnd (max spanStart 1) = hi at *
  generalize max spanStart 1 = lo at *
  have hbelow := abs64_eq (x := estimate - lo) (by omega) (by omega)
  have habove := abs64_eq (x := hi - estimate) (by omega) (by omega)
  have hradius : (min (max ((estimate - lo).natAbs : Int) ((hi - estimate).natAbs : Int))
      (maxSnapRadius : Int)).toNat = radius estimate lo hi := by
    rw [radius]
    omega
  have hloop := @loop_eq lines name col estimate lo hi hfits hlo hhi hlow hhigh
  simp only [Option.bind_eq_bind]
  rw [hbelow, habove, Option.bind_some, Option.bind_some, hradius, hloop, Option.bind_some]
  cases Nearest.search (isHit lines name col lo hi) estimate (radius estimate lo hi) with
  | some l => rfl
  | none => exact tokenAtEstimate_eq hlo hhi

/-! ### The line it returns -/

/-- A line of the span, within reach of the estimate, that carries the name at the column. -/
structure Candidate (lines : List (List Char)) (name : List Char) (col : Nat)
    (estimate lo hi l : Int) : Prop where
  span : lo ≤ l ∧ l ≤ hi
  reach : (l - estimate).natAbs ≤ maxSnapRadius
  carries : ∃ line, lineAt lines l = some line ∧ CarriesName line name col

/-- The line an occurrence is anchored at: the nearest candidate, the later of two; where there is
none, the estimate, when it lies in the span and a token starts there. -/
def Anchors (lines : List (List Char)) (name : List Char) (col : Nat)
    (estimate lo hi l : Int) : Prop :=
  (Candidate lines name col estimate lo hi l ∧
      ∀ k, Candidate lines name col estimate lo hi k → Nearest.Before estimate l k) ∨
    ((∀ k, ¬Candidate lines name col estimate lo hi k) ∧ l = estimate ∧ lo ≤ l ∧ l ≤ hi ∧
      ∃ line, lineAt lines l = some line ∧ StartsToken line col)

section

variable {lines : List (List Char)} {name : List Char} {col : Nat} {estimate lo hi l : Int}

theorem candidate_iff :
    Candidate lines name col estimate lo hi l ↔
      isHit lines name col lo hi l = true ∧ (l - estimate).natAbs ≤ radius estimate lo hi := by
  have hhit : isHit lines name col lo hi l = true ↔ (lo ≤ l ∧ l ≤ hi) ∧
      ∃ line, lineAt lines l = some line ∧ CarriesName line name col := by
    simp only [isHit, Bool.and_eq_true, decide_eq_true_eq, Option.any_eq_true,
      occurrenceAtCol_iff]
  rw [hhit, radius]
  apply Iff.intro
  · intro hcand
    have hspan := hcand.span
    have hreach := hcand.reach
    exact ⟨⟨hspan, hcand.carries⟩, by omega⟩
  · rintro ⟨⟨hspan, hcarries⟩, hdist⟩
    exact ⟨hspan, by omega, hcarries⟩

theorem search_eq_some_iff :
    Nearest.search (isHit lines name col lo hi) estimate (radius estimate lo hi) = some l ↔
      Candidate lines name col estimate lo hi l ∧
        ∀ k, Candidate lines name col estimate lo hi k → Nearest.Before estimate l k := by
  rw [Nearest.search_eq_some, candidate_iff, and_assoc]
  simp only [candidate_iff]
  apply and_congr_right
  intro _
  apply and_congr_right
  intro _
  apply Iff.intro
  · intro hall k hk
    exact hall k hk.2 hk.1
  · intro hall k hdist hhit
    exact hall k ⟨hhit, hdist⟩

theorem search_eq_none_iff :
    Nearest.search (isHit lines name col lo hi) estimate (radius estimate lo hi) = none ↔
      ∀ k, ¬Candidate lines name col estimate lo hi k := by
  rw [Nearest.search_eq_none]
  simp only [candidate_iff]
  apply Iff.intro
  · rintro hall k ⟨hhit, hdist⟩
    rw [hall k hdist] at hhit
    simp at hhit
  · intro hall k hdist
    rw [Bool.eq_false_iff]
    exact fun hhit => hall k ⟨hhit, hdist⟩

end

theorem snap_eq_some (lines : List (List Char)) (name : List Char) (col : Nat)
    (estimate spanStart spanEnd : Int) (l : Nat) :
    Store.snapChangedOccurrenceLine lines name col estimate spanStart spanEnd = some l ↔
      Anchors lines name col estimate (max spanStart 1) (max spanEnd (max spanStart 1)) l := by
  rw [snap_eq]
  have hlo : 1 ≤ max spanStart 1 := le_max_right _ _
  generalize max spanEnd (max spanStart 1) = hi
  generalize max spanStart 1 = lo at *
  cases hfound : Nearest.search (isHit lines name col lo hi) estimate (radius estimate lo hi) with
  | some m =>
    have hm := search_eq_some_iff.mp hfound
    have hspan := hm.1.span
    apply Iff.intro
    · intro hl
      have hml : m = (l : Int) := by
        have heq : m.toNat = l := by simpa using hl
        omega
      exact Or.inl (hml ▸ hm)
    · rintro (hl | ⟨hnone, -⟩)
      · have hsome := search_eq_some_iff.mpr hl
        rw [hfound, Option.some.injEq] at hsome
        simp [hsome]
      · exact absurd hm.1 (hnone m)
  | none =>
    have hnone := search_eq_none_iff.mp hfound
    have htoken : (lineAt lines estimate).any (Store.tokenStartsAt · col) = true ↔
        ∃ line, lineAt lines estimate = some line ∧ StartsToken line col := by
      simp only [Option.any_eq_true, tokenStartsAt_iff]
    apply Iff.intro
    · intro hl
      split_ifs at hl with htier
      have heq : estimate.toNat = l := by simpa using hl
      have hle : (l : Int) = estimate := by omega
      rw [hle]
      exact Or.inr ⟨hnone, rfl, htier.1, htier.2.1, htoken.mp htier.2.2⟩
    · rintro (⟨hcand, -⟩ | ⟨-, hle, htier⟩)
      · exact absurd hcand (hnone l)
      · rw [hle] at htier
        have hl : estimate.toNat = l := by omega
        rw [if_pos ⟨htier.1, htier.2.1, htoken.mpr htier.2.2⟩, hl]

end Snap

/-- `snap_changed_occurrence_line` traps nowhere and returns the anchored line, in a span that ends
no earlier than it starts. -/
theorem snapChangedOccurrenceLine_anchors (lines : List (List Char)) (name : List Char) (col : Nat)
    (estimate spanStart spanEnd : Int) (hfits : Snap.Fits lines name)
    (hlow : -(2 ^ 62) ≤ estimate) (hhigh : estimate < 2 ^ 31) (hstart : spanStart < 2 ^ 31)
    (hend : spanEnd < 2 ^ 31) :
    ∃ r, Snap.snapChangedOccurrenceLine lines name col estimate spanStart spanEnd = some r ∧
      ∀ l : Nat, r = some l ↔ Snap.Anchors lines name col estimate (max spanStart 1)
        (max spanEnd (max spanStart 1)) l := by
  have htotal := @Snap.snapChangedOccurrenceLine_eq lines name col estimate spanStart spanEnd hfits
    hlow hhigh hstart hend
  refine ⟨_, htotal, ?_⟩
  intro l
  exact Snap.snap_eq_some lines name col estimate spanStart spanEnd l

/-- A name behind a two-byte letter. -/
theorem snapChangedOccurrenceLine_anchors_accent :
    ∃ r, Snap.snapChangedOccurrenceLine ["é foo".toList, "é foo".toList, "é foo".toList]
        "foo".toList 3 2 1 3 = some r ∧
      ∀ l : Nat, r = some l ↔ Snap.Anchors ["é foo".toList, "é foo".toList, "é foo".toList]
        "foo".toList 3 2 (max 1 1) (max 3 (max 1 1)) l :=
  snapChangedOccurrenceLine_anchors _ _ _ _ _ _
    ⟨by decide +kernel, by decide +kernel⟩ (by decide) (by decide) (by decide) (by decide)

/-- A span that ends before it starts still holds its first line, so a line outside the stated
interval is returned; and an estimate near the least number overflows. -/
theorem inverted_span_holds_its_start :
    Snap.snapChangedOccurrenceLine ["a".toList, "foo".toList] "foo".toList 0 2 2 1 =
        some (some 2) ∧
      (∀ l, ¬Snap.Anchors ["a".toList, "foo".toList] "foo".toList 0 2 (max 2 1) 1 l) ∧
      Snap.snapChangedOccurrenceLine [] [] 0 (-(2 ^ 63)) 1 1 = none := by
  refine ⟨by decide +kernel, ?_, by decide +kernel⟩
  rintro l (⟨hcand, -⟩ | ⟨-, -, hlo, hhi, -⟩)
  · have hspan := hcand.span
    omega
  · omega

end Travsr.Store
