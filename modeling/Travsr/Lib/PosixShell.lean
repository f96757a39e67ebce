import Mathlib.Data.List.Basic

/-! How a POSIX shell cuts a command line into simple commands: words, quotes and escapes, line
continuations, comments, control operators and pipelines. Expansions are left as they stand. -/

namespace PosixShell

/-- A simple command with its words, its place in the line, and its pipes. A redirection's operator
is kept as a word of its own. -/
structure Command where
  words : List (List Char)
  start : Nat
  stop : Nat
  readsPipe : Bool
  writesPipe : Bool
deriving DecidableEq

inductive Mode where
  | plain
  | escaped
  | single
  | double
  | doubleEscaped
  | comment
  | bar
deriving DecidableEq

/-- The command being read: its finished words, the word that is being read, where the command
started and where its last word ended, and whether a pipe feeds it. -/
structure State where
  mode : Mode
  word : Option (List Char)
  words : List (List Char)
  start : Nat
  stop : Nat
  piped : Bool
  pos : Nat
deriving DecidableEq

def State.init : State := ⟨.plain, none, [], 0, 0, false, 0⟩

namespace State

variable (σ : State)

/-- Something of a command has been read. -/
def Begun : Prop := σ.word ≠ none ∨ σ.words ≠ []

instance : Decidable σ.Begun := inferInstanceAs (Decidable (_ ∨ _))

def begin : Nat := if σ.Begun then σ.start else σ.pos

def put (c : Char) : State := { σ with word := some (σ.word.getD [] ++ [c]), start := σ.begin }

def openQuote (m : Mode) : State :=
  { σ with mode := m, word := some (σ.word.getD []), start := σ.begin }

def endWord : State :=
  match σ.word with
  | none => σ
  | some w => { σ with word := none, words := σ.words ++ [w], stop := σ.pos }

def command (writes : Bool) : List Command :=
  if σ.endWord.words = [] then []
  else [⟨σ.endWord.words, σ.start, σ.endWord.stop, σ.piped, writes⟩]

def clear (piped : Bool) : State := { σ with mode := .plain, word := none, words := [], piped }

def redirect (c : Char) : State :=
  { σ.endWord with
    words := σ.endWord.words ++ [[c]]
    start := σ.begin
    stop := σ.pos + 1 }

def newline : State × List Command :=
  (σ.clear (!decide σ.Begun && σ.piped), σ.command false)

def plainStep (c : Char) : State × List Command :=
  if c = '\\' then ({ σ with mode := .escaped }, [])
  else if c = '\'' then (σ.openQuote .single, [])
  else if c = '"' then (σ.openQuote .double, [])
  else if c = '#' ∧ σ.word = none then ({ σ with mode := .comment }, [])
  else if c = ' ' ∨ c = '\t' then (σ.endWord, [])
  else if c = '\n' then σ.newline
  else if c = ';' ∨ c = '&' ∨ c = ')' then (σ.clear false, σ.command false)
  else if c = '(' then (σ.clear (!decide σ.Begun && σ.piped), σ.command false)
  else if c = '|' then ({ σ.endWord with mode := .bar }, [])
  else if c = '<' ∨ c = '>' then (σ.redirect c, [])
  else (σ.put c, [])

def read (c : Char) : State × List Command :=
  match σ.mode with
  | .plain => σ.plainStep c
  | .escaped =>
    if c = '\n' then ({ σ with mode := .plain }, []) else ({ σ.put c with mode := .plain }, [])
  | .single => if c = '\'' then ({ σ with mode := .plain }, []) else (σ.put c, [])
  | .double =>
    if c = '"' then ({ σ with mode := .plain }, [])
    else if c = '\\' then ({ σ with mode := .doubleEscaped }, [])
    else (σ.put c, [])
  | .doubleEscaped =>
    if c = '\n' then ({ σ with mode := .double }, [])
    else if c = '$' ∨ c = '`' ∨ c = '"' ∨ c = '\\' then ({ σ.put c with mode := .double }, [])
    else ({ (σ.put '\\').put c with mode := .double }, [])
  | .comment => if c = '\n' then σ.newline else (σ, [])
  | .bar =>
    if c = '|' then (σ.clear false, σ.command false)
    else (((σ.clear true).plainStep c).1, σ.command true ++ ((σ.clear true).plainStep c).2)

def step (c : Char) : State × List Command :=
  ({ (σ.read c).1 with pos := σ.pos + 1 }, (σ.read c).2)

def finish : List Command :=
  match σ.mode with
  | .plain | .comment => σ.command false
  | .bar => σ.command true
  | .escaped | .single | .double | .doubleEscaped => []

end State

/-- Reads on from a state; the commands that end on the way, and the state at the end. -/
def run (σ : State) : List Char → State × List Command
  | [] => (σ, [])
  | c :: cs => ((run (σ.step c).1 cs).1, (σ.step c).2 ++ (run (σ.step c).1 cs).2)

def rest (σ : State) (text : List Char) : List Command :=
  (run σ text).2 ++ (run σ text).1.finish

def commands (line : List Char) : List Command := rest State.init line

theorem run_cons (σ : State) (c : Char) (cs : List Char) :
    run σ (c :: cs) = ((run (σ.step c).1 cs).1, (σ.step c).2 ++ (run (σ.step c).1 cs).2) := rfl

theorem run_append (σ : State) (s t : List Char) :
    run σ (s ++ t) = ((run (run σ s).1 t).1, (run σ s).2 ++ (run (run σ s).1 t).2) := by
  induction s generalizing σ with
  | nil => rfl
  | cons c s ih => rw [List.cons_append, run_cons, run_cons, ih, List.append_assoc]

theorem rest_append (σ : State) (s t : List Char) :
    rest σ (s ++ t) = (run σ s).2 ++ rest (run σ s).1 t := by
  rw [rest, run_append, rest, List.append_assoc]

theorem rest_cons (σ : State) (c : Char) (cs : List Char) :
    rest σ (c :: cs) = (σ.step c).2 ++ rest (σ.step c).1 cs := by
  rw [rest, run_cons, rest, List.append_assoc]

theorem pos_run (σ : State) (s : List Char) : (run σ s).1.pos = σ.pos + s.length := by
  induction s generalizing σ with
  | nil => rfl
  | cons c s ih =>
    rw [run_cons, ih, List.length_cons]
    show σ.pos + 1 + s.length = σ.pos + (s.length + 1)
    omega

/-! ### What a character can do -/

def Mode.Quoted (m : Mode) : Prop := m = .single ∨ m = .double ∨ m = .doubleEscaped

/-- Every character but the one behind a `|` does one of these. -/
inductive Effect (σ : State) : State → List Command → Prop where
  | keep (m : Mode) (hm : m.Quoted → σ.mode.Quoted) (hbar : m ≠ .bar) :
      Effect σ { σ with mode := m } []
  | grow (m : Mode) (w : List Char) (hbar : m ≠ .bar) :
      Effect σ { σ with mode := m, word := some w, start := σ.begin } []
  | ended (m : Mode) (hm : m = .plain ∨ m = .bar) : Effect σ { σ.endWord with mode := m } []
  | redirected (c : Char) : Effect σ { σ.redirect c with mode := .plain } []
  | control (piped : Bool) : Effect σ (σ.clear piped) (σ.command false)

namespace State

variable {σ τ : State} {c : Char} {out : List Command}

theorem endWord_mode (σ : State) : σ.endWord.mode = σ.mode := by
  unfold endWord
  cases σ.word <;> rfl

theorem endWord_word (σ : State) : σ.endWord.word = none := by
  unfold endWord
  cases h : σ.word with
  | none => exact h
  | some w => rfl

theorem endWord_start (σ : State) : σ.endWord.start = σ.start := by
  unfold endWord
  cases σ.word <;> rfl

theorem endWord_piped (σ : State) : σ.endWord.piped = σ.piped := by
  unfold endWord
  cases σ.word <;> rfl

theorem endWord_of_none (h : σ.word = none) : σ.endWord = σ := by
  unfold endWord
  rw [h]

theorem endWord_stop {w : List Char} (h : σ.word = some w) : σ.endWord.stop = σ.pos := by
  unfold endWord
  rw [h]

theorem begun_iff (σ : State) : σ.Begun ↔ σ.endWord.words ≠ [] := by
  unfold Begun endWord
  cases hw : σ.word with
  | none => simp
  | some w => simp

theorem with_mode {m : Mode} (h : τ.mode = m) : { τ with mode := m } = τ := by
  subst h
  rfl

theorem plainStep_cases {P : State × List Command → Prop} (σ : State) (c : Char)
    (escape : c = '\\' → P ({ σ with mode := .escaped }, []))
    (single : c = '\'' → P (σ.openQuote .single, []))
    (double : c = '"' → P (σ.openQuote .double, []))
    (comment : c = '#' ∧ σ.word = none → P ({ σ with mode := .comment }, []))
    (blank : c = ' ' ∨ c = '\t' → P (σ.endWord, []))
    (newline : c = '\n' → P σ.newline)
    (operator : c = ';' ∨ c = '&' ∨ c = ')' → P (σ.clear false, σ.command false))
    (group : c = '(' → P (σ.clear (!decide σ.Begun && σ.piped), σ.command false))
    (bar : c = '|' → P ({ σ.endWord with mode := .bar }, []))
    (redirect : c = '<' ∨ c = '>' → P (σ.redirect c, []))
    (other : P (σ.put c, [])) : P (σ.plainStep c) :=
  iteInduction escape fun _ => iteInduction single fun _ => iteInduction double fun _ =>
    iteInduction comment fun _ => iteInduction blank fun _ => iteInduction newline fun _ =>
      iteInduction operator fun _ => iteInduction group fun _ => iteInduction bar fun _ =>
        iteInduction redirect fun _ => other

theorem effect_plain (hmode : σ.mode = .plain) (c : Char) :
    Effect σ (σ.plainStep c).1 (σ.plainStep c).2 := by
  apply plainStep_cases (P := fun r => Effect σ r.1 r.2)
  case escape => exact fun _ => Effect.keep .escaped (by simp [Mode.Quoted]) (by simp)
  case single => exact fun _ => Effect.grow .single _ (by simp)
  case double => exact fun _ => Effect.grow .double _ (by simp)
  case comment => exact fun _ => Effect.keep .comment (by simp [Mode.Quoted]) (by simp)
  case blank =>
    intro _
    have h := Effect.ended .plain (Or.inl rfl) (σ := σ)
    rwa [with_mode (by rw [endWord_mode, hmode])] at h
  case newline => exact fun _ => Effect.control _
  case operator => exact fun _ => Effect.control _
  case group => exact fun _ => Effect.control _
  case bar => exact fun _ => Effect.ended .bar (Or.inr rfl)
  case redirect =>
    intro _
    have h := Effect.redirected c (σ := σ)
    rwa [with_mode (by show σ.endWord.mode = .plain; rw [endWord_mode, hmode])] at h
  case other =>
    have h := Effect.grow .plain (σ.word.getD [] ++ [c]) (by simp) (σ := σ)
    rw [← hmode] at h
    exact h

theorem effect_read (hmode : σ.mode ≠ .bar) (c : Char) :
    Effect σ (σ.read c).1 (σ.read c).2 := by
  unfold read
  cases hm : σ.mode with
  | bar => exact absurd hm hmode
  | plain => exact effect_plain hm c
  | escaped =>
    simp only
    split_ifs
    · exact Effect.keep .plain (by simp [Mode.Quoted]) (by simp)
    · exact Effect.grow .plain _ (by simp)
  | single =>
    simp only
    split_ifs
    · exact Effect.keep .plain (by simp [Mode.Quoted]) (by simp)
    · have h := Effect.grow .single (σ.word.getD [] ++ [c]) (by simp) (σ := σ)
      rw [← hm] at h
      exact h
  | double =>
    simp only
    split_ifs
    · exact Effect.keep .plain (by simp [Mode.Quoted]) (by simp)
    · exact Effect.keep .doubleEscaped (by simp [Mode.Quoted, hm]) (by simp)
    · have h := Effect.grow .double (σ.word.getD [] ++ [c]) (by simp) (σ := σ)
      rw [← hm] at h
      exact h
  | doubleEscaped =>
    simp only
    split_ifs
    · exact Effect.keep .double (by simp [Mode.Quoted, hm]) (by simp)
    · exact Effect.grow .double _ (by simp)
    · have hbegin : (σ.put '\\').begin = σ.begin := by
        have hbegun : (σ.put '\\').Begun := Or.inl (Option.some_ne_none _)
        exact if_pos hbegun
      have h := Effect.grow .double (σ.word.getD [] ++ ['\\'] ++ [c]) (by simp) (σ := σ)
      have heq : { (σ.put '\\').put c with mode := .double } =
          { σ with mode := .double, word := some (σ.word.getD [] ++ ['\\'] ++ [c]),
                   start := σ.begin } := by
        show ({ (σ.put '\\') with
          mode := .double, word := some (σ.word.getD [] ++ ['\\'] ++ [c]),
          start := (σ.put '\\').begin } : State) = _
        rw [hbegin]
        rfl
      rw [heq]
      exact h
  | comment =>
    simp only
    split_ifs
    · exact Effect.control _
    · have h := Effect.keep .comment (by simp [Mode.Quoted]) (by simp) (σ := σ)
      rwa [with_mode hm] at h

theorem not_begun {ρ : State} (hword : ρ.word = none) (hwords : ρ.words = []) : ¬ρ.Begun := by
  rintro (h | h)
  · exact h hword
  · exact h hwords

theorem read_of_bar (hmode : σ.mode = .bar) (c : Char) :
    σ.read c = if c = '|' then (σ.clear false, σ.command false)
      else (((σ.clear true).plainStep c).1, σ.command true ++ ((σ.clear true).plainStep c).2) := by
  unfold read
  rw [hmode]

theorem read_bar (hmode : σ.mode = .bar) (c : Char) :
    (c = '|' ∧ σ.read c = (σ.clear false, σ.command false)) ∨
      (c ≠ '|' ∧ Effect (σ.clear true) (σ.read c).1 ((σ.clear true).plainStep c).2 ∧
        (σ.read c).2 = σ.command true ++ ((σ.clear true).plainStep c).2) := by
  by_cases hc : c = '|'
  · exact Or.inl ⟨hc, by rw [read_of_bar hmode, if_pos hc]⟩
  · rw [read_of_bar hmode, if_neg hc]
    exact Or.inr ⟨hc, effect_plain rfl c, rfl⟩

/-! ### Where a command comes from -/

/-- A command that is still to come is the one being read, which has not ended yet or ends here, or
starts later. -/
def From (σ : State) (d : Command) : Prop :=
  (σ.Begun ∧ d.start = σ.start ∧ d.readsPipe = σ.piped ∧
      ((d.words = σ.endWord.words ∧ d.stop = σ.endWord.stop) ∨ σ.pos < d.stop)) ∨
    σ.pos ≤ d.start

variable {d : Command}

theorem mem_command {writes : Bool} (h : d ∈ σ.command writes) :
    σ.Begun ∧ d = ⟨σ.endWord.words, σ.start, σ.endWord.stop, σ.piped, writes⟩ := by
  unfold command at h
  split_ifs at h with hwords
  · simp at h
  · exact ⟨(begun_iff σ).mpr hwords, List.mem_singleton.mp h⟩

theorem from_command {writes : Bool} (h : d ∈ σ.command writes) : From σ d := by
  obtain ⟨hbegun, rfl⟩ := mem_command h
  exact Or.inl ⟨hbegun, rfl, rfl, Or.inl ⟨rfl, rfl⟩⟩

theorem begin_of_begun (h : σ.Begun) : σ.begin = σ.start := if_pos h

theorem begin_of_not_begun (h : ¬σ.Begun) : σ.begin = σ.pos := if_neg h

theorem from_effect (h : Effect σ τ out) (hd : From { τ with pos := σ.pos + 1 } d) : From σ d := by
  have hlater : σ.pos + 1 ≤ d.start → From σ d := fun hle => Or.inr (by omega)
  cases h with
  | keep m hm hbar =>
    rcases hd with ⟨hbegun, hstart, hpiped, hword⟩ | hle
    · refine Or.inl ⟨hbegun, hstart, hpiped, ?_⟩
      cases hw : σ.word with
      | none =>
        rw [endWord_of_none (by exact hw)] at hword
        rw [endWord_of_none hw]
        rcases hword with hsame | hlt
        · exact Or.inl hsame
        · exact Or.inr (Nat.lt_of_succ_lt hlt)
      | some w =>
        have hend : ({ σ with mode := m, pos := σ.pos + 1 } : State).endWord.stop = σ.pos + 1 :=
          endWord_stop (by exact hw)
        rcases hword with ⟨-, hstop⟩ | hlt
        · have hstop' : d.stop = σ.pos + 1 := hstop.trans hend
          exact Or.inr (by omega)
        · exact Or.inr (Nat.lt_of_succ_lt hlt)
    · exact hlater hle
  | grow m w hbar =>
    rcases hd with ⟨hbegun, hstart, hpiped, hword⟩ | hle
    · have hstart' : d.start = σ.begin := hstart
      by_cases hb : σ.Begun
      · rw [begin_of_begun hb] at hstart'
        refine Or.inl ⟨hb, hstart', hpiped, Or.inr ?_⟩
        rcases hword with ⟨-, hstop⟩ | hlt
        · have hend : d.stop = σ.pos + 1 := hstop
          omega
        · exact Nat.lt_of_succ_lt hlt
      · rw [begin_of_not_begun hb] at hstart'
        exact Or.inr (Nat.le_of_eq hstart'.symm)
    · exact hlater hle
  | ended m hm =>
    rcases hd with ⟨hbegun, hstart, hpiped, hword⟩ | hle
    · have hwords : σ.endWord.words ≠ [] := by
        rw [begun_iff] at hbegun
        rw [endWord_of_none (by exact endWord_word σ)] at hbegun
        exact hbegun
      refine Or.inl ⟨(begun_iff σ).mpr hwords, hstart.trans (endWord_start σ),
        hpiped.trans (endWord_piped σ), ?_⟩
      rw [endWord_of_none (by exact endWord_word σ)] at hword
      rcases hword with hsame | hlt
      · exact Or.inl hsame
      · exact Or.inr (Nat.lt_of_succ_lt hlt)
    · exact hlater hle
  | redirected c =>
    rcases hd with ⟨hbegun, hstart, hpiped, hword⟩ | hle
    · have hstart' : d.start = σ.begin := hstart
      by_cases hb : σ.Begun
      · rw [begin_of_begun hb] at hstart'
        refine Or.inl ⟨hb, hstart', hpiped.trans (endWord_piped σ), Or.inr ?_⟩
        have hnone : ({ σ.redirect c with mode := .plain, pos := σ.pos + 1 } : State).word = none :=
          endWord_word σ
        rw [endWord_of_none hnone] at hword
        rcases hword with ⟨-, hstop⟩ | hlt
        · have hend : d.stop = σ.pos + 1 := hstop
          omega
        · exact Nat.lt_of_succ_lt hlt
      · rw [begin_of_not_begun hb] at hstart'
        exact Or.inr (Nat.le_of_eq hstart'.symm)
    · exact hlater hle
  | control piped =>
    rcases hd with ⟨hbegun, -⟩ | hle
    · exact absurd hbegun (not_begun rfl rfl)
    · exact hlater hle

theorem from_out (h : Effect σ τ out) (hd : d ∈ out) : From σ d := by
  cases h with
  | keep => simp at hd
  | grow => simp at hd
  | ended => simp at hd
  | redirected => simp at hd
  | control => exact from_command hd

theorem from_clear {piped : Bool} (h : From (σ.clear piped) d) : σ.pos ≤ d.start := by
  rcases h with ⟨hbegun, -⟩ | hle
  · exact absurd hbegun (not_begun rfl rfl)
  · exact hle

theorem from_step (c : Char) (hd : From (σ.step c).1 d) : From σ d := by
  by_cases hmode : σ.mode = .bar
  · rcases read_bar hmode c with ⟨-, hread⟩ | ⟨-, heffect, -⟩
    · have hstep : (σ.step c).1 = { σ.clear false with pos := σ.pos + 1 } := by rw [step, hread]
      rw [hstep] at hd
      have hle := from_clear (σ := { σ with pos := σ.pos + 1 }) hd
      have hle' : σ.pos + 1 ≤ d.start := hle
      exact Or.inr (by omega)
    · exact Or.inr (from_clear (from_effect heffect hd))
  · exact from_effect (effect_read hmode c) hd

theorem from_step_out (c : Char) (hd : d ∈ (σ.step c).2) : From σ d := by
  by_cases hmode : σ.mode = .bar
  · rcases read_bar hmode c with ⟨-, hread⟩ | ⟨-, heffect, hout⟩
    · have hstep : (σ.step c).2 = σ.command false := by rw [step, hread]
      exact from_command (hstep ▸ hd)
    · have hstep : (σ.step c).2 = σ.command true ++ ((σ.clear true).plainStep c).2 := hout
      rw [hstep] at hd
      rcases List.mem_append.mp hd with hfirst | hsecond
      · exact from_command hfirst
      · exact Or.inr (from_clear (from_out heffect hsecond))
  · exact from_out (effect_read hmode c) hd

theorem from_finish (hd : d ∈ σ.finish) : From σ d := by
  unfold finish at hd
  cases hm : σ.mode <;> simp only [hm] at hd
  · exact from_command hd
  · simp at hd
  · simp at hd
  · simp at hd
  · simp at hd
  · exact from_command hd
  · exact from_command hd

theorem from_rest {text : List Char} (hd : d ∈ rest σ text) : From σ d := by
  induction text generalizing σ with
  | nil => exact from_finish hd
  | cons c text ih =>
    rw [rest_cons] at hd
    rcases List.mem_append.mp hd with hout | hrest
    · exact from_step_out c hout
    · exact from_step c (ih hrest)

/-! ### States that a line leads to -/

/-- What is read has started, and has ended if it has. -/
structure Sound (σ : State) : Prop where
  started : σ.Begun → σ.start < σ.pos
  ended : σ.words ≠ [] → σ.start < σ.stop ∧ σ.stop ≤ σ.pos
  quoted : σ.mode.Quoted → σ.word ≠ none
  afterBar : σ.mode = .bar → σ.word = none

theorem sound_init : Sound State.init where
  started := by simp [init, Begun]
  ended := by simp [init]
  quoted := by simp [init, Mode.Quoted]
  afterBar := by simp [init]

theorem not_quoted_plain : ¬Mode.plain.Quoted := by
  unfold Mode.Quoted
  decide

theorem sound_clear (σ : State) (piped : Bool) (p : Nat) : Sound { σ.clear piped with pos := p } :=
  ⟨fun hb => absurd hb (not_begun rfl rfl), fun hw => absurd rfl hw,
    fun hq => absurd hq not_quoted_plain, fun _ => rfl⟩

theorem stop_endWord (h : Sound σ) (hbegun : σ.Begun) :
    σ.start < σ.endWord.stop ∧ σ.endWord.stop ≤ σ.pos := by
  cases hw : σ.word with
  | none =>
    rw [endWord_of_none hw]
    apply h.ended
    rcases hbegun with hword | hwords
    · exact absurd hw hword
    · exact hwords
  | some w =>
    have hstop : σ.endWord.stop = σ.pos := endWord_stop hw
    rw [hstop]
    exact ⟨h.started hbegun, Nat.le_refl _⟩

theorem begin_le (h : Sound σ) : σ.begin ≤ σ.pos := by
  by_cases hb : σ.Begun
  · rw [begin_of_begun hb]
    exact Nat.le_of_lt (h.started hb)
  · exact Nat.le_of_eq (begin_of_not_begun hb)

theorem sound_effect (h : Sound σ) (he : Effect σ τ out) : Sound { τ with pos := σ.pos + 1 } := by
  cases he with
  | keep m hm hbar =>
    refine ⟨fun hb => ?_, fun hw => ?_, fun hq => h.quoted (hm hq), fun hb => absurd hb hbar⟩
    · exact Nat.lt_succ_of_lt (h.started hb)
    · exact ⟨(h.ended hw).1, Nat.le_succ_of_le (h.ended hw).2⟩
  | grow m w hbar =>
    refine ⟨fun _ => ?_, fun hw => ?_, fun _ => Option.some_ne_none w, fun hb => absurd hb hbar⟩
    · exact Nat.lt_succ_of_le (begin_le h)
    · have hstart : σ.begin = σ.start := begin_of_begun (Or.inr hw)
      show σ.begin < σ.stop ∧ σ.stop ≤ σ.pos + 1
      rw [hstart]
      exact ⟨(h.ended hw).1, Nat.le_succ_of_le (h.ended hw).2⟩
  | ended m hm =>
    have hstart := endWord_start σ
    refine ⟨fun hb => ?_, fun hw => ?_, fun hq => ?_, fun _ => endWord_word σ⟩
    · have hbegun : σ.Begun := by
        rw [begun_iff]
        rcases hb with hword | hwords
        · exact absurd (endWord_word σ) hword
        · exact hwords
      show σ.endWord.start < σ.pos + 1
      rw [hstart]
      exact Nat.lt_succ_of_lt (h.started hbegun)
    · have hstop := stop_endWord h ((begun_iff σ).mpr hw)
      show σ.endWord.start < σ.endWord.stop ∧ σ.endWord.stop ≤ σ.pos + 1
      rw [hstart]
      exact ⟨hstop.1, Nat.le_succ_of_le hstop.2⟩
    · rcases hm with rfl | rfl <;> simp [Mode.Quoted] at hq
  | redirected c =>
    have hle := begin_le h
    refine ⟨fun _ => ?_, fun _ => ?_, fun hq => ?_, fun hb => ?_⟩
    · show σ.begin < σ.pos + 1
      omega
    · show σ.begin < σ.pos + 1 ∧ σ.pos + 1 ≤ σ.pos + 1
      omega
    · simp [Mode.Quoted] at hq
    · simp at hb
  | control piped =>
    exact sound_clear σ _ _

theorem sound_step (h : Sound σ) (c : Char) : Sound (σ.step c).1 := by
  by_cases hmode : σ.mode = .bar
  · rcases read_bar hmode c with ⟨-, hread⟩ | ⟨-, heffect, -⟩
    · have hstep : (σ.step c).1 = { σ.clear false with pos := σ.pos + 1 } := by rw [step, hread]
      rw [hstep]
      exact sound_clear σ _ _
    · exact sound_effect (σ := σ.clear true) (sound_clear σ true σ.pos) heffect
  · exact sound_effect h (effect_read hmode c)

theorem sound_run (h : Sound σ) (text : List Char) : Sound (run σ text).1 := by
  induction text generalizing σ with
  | nil => exact h
  | cons c text ih => exact ih (sound_step h c)

theorem mem_command_lt {writes : Bool} (h : Sound σ) (hd : d ∈ σ.command writes) :
    d.start < d.stop ∧ d.stop ≤ σ.pos := by
  obtain ⟨hbegun, rfl⟩ := mem_command hd
  exact stop_endWord h hbegun

theorem effect_out_lt (h : Sound σ) (he : Effect σ τ out) (hd : d ∈ out) :
    d.start < d.stop ∧ d.stop ≤ σ.pos := by
  cases he with
  | keep => simp at hd
  | grow => simp at hd
  | ended => simp at hd
  | redirected => simp at hd
  | control => exact mem_command_lt h hd

theorem step_out_lt (h : Sound σ) (c : Char) (hd : d ∈ (σ.step c).2) :
    d.start < d.stop ∧ d.stop ≤ σ.pos := by
  by_cases hmode : σ.mode = .bar
  · rcases read_bar hmode c with ⟨-, hread⟩ | ⟨-, heffect, hout⟩
    · have hstep : (σ.step c).2 = σ.command false := by rw [step, hread]
      exact mem_command_lt h (hstep ▸ hd)
    · have hstep : (σ.step c).2 = σ.command true ++ ((σ.clear true).plainStep c).2 := hout
      rw [hstep] at hd
      rcases List.mem_append.mp hd with hfirst | hsecond
      · exact mem_command_lt h hfirst
      · exact effect_out_lt (σ := σ.clear true) (sound_clear σ true σ.pos) heffect hsecond
  · exact effect_out_lt h (effect_read hmode c) hd

theorem finish_lt (h : Sound σ) (hd : d ∈ σ.finish) : d.start < d.stop ∧ d.stop ≤ σ.pos := by
  unfold finish at hd
  cases hm : σ.mode <;> simp only [hm] at hd
  · exact mem_command_lt h hd
  · simp at hd
  · simp at hd
  · simp at hd
  · simp at hd
  · exact mem_command_lt h hd
  · exact mem_command_lt h hd

theorem run_out_lt (h : Sound σ) {text : List Char} (hd : d ∈ (run σ text).2) :
    d.start < d.stop ∧ d.stop ≤ σ.pos + text.length := by
  induction text generalizing σ with
  | nil => simp [run] at hd
  | cons c text ih =>
    rw [run_cons] at hd
    rcases List.mem_append.mp hd with hout | hrest
    · have hlt := step_out_lt h c hout
      exact ⟨hlt.1, Nat.le_trans hlt.2 (Nat.le_add_right _ _)⟩
    · have hlt := ih (sound_step h c) hrest
      have hpos : (σ.step c).1.pos = σ.pos + 1 := rfl
      rw [hpos] at hlt
      rw [List.length_cons]
      omega

theorem rest_lt (h : Sound σ) {text : List Char} (hd : d ∈ rest σ text) : d.start < d.stop := by
  rcases List.mem_append.mp hd with hrun | hfinish
  · exact (run_out_lt h hrun).1
  · exact (finish_lt (sound_run h text) hfinish).1

end State

end PosixShell
