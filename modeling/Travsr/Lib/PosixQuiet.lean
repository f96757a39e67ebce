import Travsr.Lib.PosixShell

/-! Text without control operators, line ends and expansions: it belongs to one command. -/

namespace PosixShell

def special : List Char := ['\n', ';', '&', '|', '(', ')', '<', '>', '$', '`']

def Quiet (c : Char) : Prop := c ∉ special

/-- The shell is ready for a command, and no pipe waits for it. -/
def State.AtCommand (σ : State) : Prop := σ.mode = .plain ∧ ¬σ.Begun ∧ σ.piped = false

instance (σ : State) : Decidable σ.AtCommand := inferInstanceAs (Decidable (_ ∧ _))

namespace State

variable {σ τ : State} {c : Char} {d : Command}

/-- What a quiet character leaves as it is. -/
structure Calm (σ τ : State) : Prop where
  noBar : τ.mode ≠ .bar
  piped : τ.piped = σ.piped
  begun : σ.Begun → τ.Begun ∧ τ.start = σ.start
  comment : σ.mode = .comment → τ.mode = .comment ∧ (τ.Begun → σ.Begun)

theorem calm_endWord (hmode : σ.mode = .plain) : Calm σ σ.endWord where
  noBar := by rw [endWord_mode, hmode]; simp
  piped := endWord_piped σ
  begun hb := ⟨Or.inr ((begun_iff σ).mp hb), endWord_start σ⟩
  comment h := by rw [hmode] at h; simp at h

theorem calm_mode {m : Mode} (hbar : m ≠ .bar) (hcomment : σ.mode ≠ .comment) :
    Calm σ { σ with mode := m } :=
  ⟨hbar, rfl, fun hb => ⟨hb, rfl⟩, fun h => absurd h hcomment⟩

theorem calm_grow {m : Mode} {w : List Char} (hbar : m ≠ .bar) (hcomment : σ.mode ≠ .comment) :
    Calm σ { σ with mode := m, word := some w, start := σ.begin } :=
  ⟨hbar, rfl, fun hb => ⟨Or.inl (Option.some_ne_none w), begin_of_begun hb⟩,
    fun h => absurd h hcomment⟩

theorem calm_put (hbar : σ.mode ≠ .bar) (hcomment : σ.mode ≠ .comment) (c : Char) :
    Calm σ (σ.put c) :=
  calm_grow (m := σ.mode) hbar hcomment

theorem quiet_plainStep (hmode : σ.mode = .plain) (hc : Quiet c) :
    (σ.plainStep c).2 = [] ∧ Calm σ (σ.plainStep c).1 := by
  have hcomment : σ.mode ≠ .comment := by rw [hmode]; simp
  have hbar : σ.mode ≠ .bar := by rw [hmode]; simp
  unfold Quiet special at hc
  simp only [List.mem_cons, List.not_mem_nil, or_false, not_or] at hc
  apply plainStep_cases (P := fun r => r.2 = [] ∧ Calm σ r.1)
  case escape => exact fun _ => ⟨rfl, calm_mode (by simp) hcomment⟩
  case single => exact fun _ => ⟨rfl, calm_grow (by simp) hcomment⟩
  case double => exact fun _ => ⟨rfl, calm_grow (by simp) hcomment⟩
  case comment => exact fun _ => ⟨rfl, calm_mode (by simp) hcomment⟩
  case blank => exact fun _ => ⟨rfl, calm_endWord hmode⟩
  case newline => exact fun h => absurd h hc.1
  case operator =>
    rintro (h | h | h)
    · exact absurd h hc.2.1
    · exact absurd h hc.2.2.1
    · exact absurd h hc.2.2.2.2.2.1
  case group => exact fun h => absurd h hc.2.2.2.2.1
  case bar => exact fun h => absurd h hc.2.2.2.1
  case redirect =>
    rintro (h | h)
    · exact absurd h hc.2.2.2.2.2.2.1
    · exact absurd h hc.2.2.2.2.2.2.2.1
  case other => exact ⟨rfl, calm_put hbar hcomment c⟩

theorem quiet_read (hmode : σ.mode ≠ .bar) (hc : Quiet c) :
    (σ.read c).2 = [] ∧ Calm σ (σ.read c).1 := by
  have hnl : c ≠ '\n' := fun h => hc (h ▸ List.mem_cons_self ..)
  unfold read
  cases hm : σ.mode with
  | bar => exact absurd hm hmode
  | plain => exact quiet_plainStep hm hc
  | escaped =>
    have hcomment : σ.mode ≠ .comment := by rw [hm]; simp
    simp only [if_neg hnl]
    exact ⟨trivial, calm_grow (by simp) hcomment⟩
  | single =>
    have hcomment : σ.mode ≠ .comment := by rw [hm]; simp
    simp only
    split_ifs
    · exact ⟨rfl, calm_mode (by simp) hcomment⟩
    · exact ⟨rfl, calm_put hmode hcomment c⟩
  | double =>
    have hcomment : σ.mode ≠ .comment := by rw [hm]; simp
    simp only
    split_ifs
    · exact ⟨rfl, calm_mode (by simp) hcomment⟩
    · exact ⟨rfl, calm_mode (by simp) hcomment⟩
    · exact ⟨rfl, calm_put hmode hcomment c⟩
  | doubleEscaped =>
    have hcomment : σ.mode ≠ .comment := by rw [hm]; simp
    simp only [if_neg hnl]
    split_ifs
    · exact ⟨rfl, calm_grow (by simp) hcomment⟩
    · refine ⟨rfl, by simp, rfl, fun hb => ?_, fun h => absurd h hcomment⟩
      have hbegun : (σ.put '\\').Begun := Or.inl (Option.some_ne_none _)
      refine ⟨Or.inl (Option.some_ne_none _), ?_⟩
      show (σ.put '\\').begin = σ.start
      rw [begin_of_begun hbegun]
      exact begin_of_begun hb
  | comment =>
    simp only [if_neg hnl]
    exact ⟨trivial, hmode, rfl, fun hb => ⟨hb, rfl⟩, fun _ => ⟨hm, id⟩⟩

theorem Calm.refl (hbar : σ.mode ≠ .bar) : Calm σ σ :=
  ⟨hbar, rfl, fun hb => ⟨hb, rfl⟩, fun h => ⟨h, id⟩⟩

theorem Calm.trans {ρ : State} (h : Calm σ τ) (h' : Calm τ ρ) : Calm σ ρ where
  noBar := h'.noBar
  piped := h'.piped.trans h.piped
  begun hb := ⟨(h'.begun (h.begun hb).1).1, (h'.begun (h.begun hb).1).2.trans (h.begun hb).2⟩
  comment hc := ⟨(h'.comment (h.comment hc).1).1,
    fun hb => (h.comment hc).2 ((h'.comment (h.comment hc).1).2 hb)⟩

theorem calm_pos {p : Nat} (h : Calm σ τ) : Calm σ { τ with pos := p } :=
  ⟨h.noBar, h.piped, h.begun, h.comment⟩

theorem quiet_run (hmode : σ.mode ≠ .bar) {text : List Char} (hquiet : ∀ c ∈ text, Quiet c) :
    (run σ text).2 = [] ∧ Calm σ (run σ text).1 := by
  induction text generalizing σ with
  | nil => exact ⟨rfl, Calm.refl hmode⟩
  | cons c text ih =>
    obtain ⟨hout, hcalm⟩ := quiet_read hmode (hquiet c (List.mem_cons_self ..))
    have hstep : Calm σ (σ.step c).1 := calm_pos hcalm
    obtain ⟨hrest, hcalm'⟩ := ih hstep.noBar fun e he => hquiet e (List.mem_cons_of_mem c he)
    have hout' : (σ.step c).2 = [] := hout
    rw [run_cons, hout', hrest]
    exact ⟨rfl, hstep.trans hcalm'⟩

theorem command_of_quiet (h : Sound σ) (hmode : σ.mode ≠ .bar) {text post : List Char}
    (hquiet : ∀ c ∈ text, Quiet c) (hd : d ∈ rest σ (text ++ post))
    (hstop : d.stop ≤ σ.pos + text.length) :
    (run σ text).1.Begun ∧ d.start = (run σ text).1.start ∧ d.readsPipe = σ.piped ∧
      d.words = (run σ text).1.endWord.words := by
  obtain ⟨hout, hcalm⟩ := quiet_run hmode hquiet
  rw [rest_append, hout, List.nil_append] at hd
  have hlt := rest_lt (sound_run h text) hd
  have hpos := pos_run σ text
  rcases from_rest hd with ⟨hbegun, hstart, hpiped, ⟨hwords, -⟩ | hlate⟩ | hlate
  · exact ⟨hbegun, hstart, hpiped.trans hcalm.piped, hwords⟩
  · omega
  · omega

theorem atCommand_of_command (h : Sound σ) (hescaped : σ.mode ≠ .escaped) {text post : List Char}
    (hquiet : ∀ c ∈ text, Quiet c) (hd : d ∈ rest σ (text ++ post)) (hstart : σ.pos ≤ d.start)
    (hstop : d.stop ≤ σ.pos + text.length) (hpipe : d.readsPipe = false) :
    σ.AtCommand ∧ d.words = (run σ text).1.endWord.words := by
  by_cases hbar : σ.mode = .bar
  · have hlt := rest_lt h hd
    cases text with
    | nil =>
      rw [List.length_nil] at hstop
      omega
    | cons c text =>
      have hc := hquiet c (List.mem_cons_self ..)
      have hne : c ≠ '|' := fun he => hc (he ▸ by decide)
      rcases read_bar hbar c with ⟨heq, -⟩ | ⟨-, -, hout⟩
      · exact absurd heq hne
      · have hread : (σ.step c).1 = { ((σ.clear true).plainStep c).1 with pos := σ.pos + 1 } := by
          have hr : σ.read c = (((σ.clear true).plainStep c).1,
              σ.command true ++ ((σ.clear true).plainStep c).2) := by
            rw [read, hbar]
            simp [hne]
          rw [step, hr]
        obtain ⟨hnone, hcalm⟩ := quiet_plainStep (σ := σ.clear true) rfl hc
        rw [hnone, List.append_nil] at hout
        have hout' : (σ.step c).2 = σ.command true := hout
        rw [List.cons_append, rest_cons, hout'] at hd
        rcases List.mem_append.mp hd with hfirst | hrest
        · have hends := mem_command_lt h hfirst
          omega
        · have hpos : (σ.step c).1.pos = σ.pos + 1 := rfl
          have hstep : Calm (σ.clear true) (σ.step c).1 := hread ▸ calm_pos hcalm
          have hlast := command_of_quiet (sound_step h c) hstep.noBar
            (fun e he => hquiet e (List.mem_cons_of_mem c he)) hrest
            (by rw [hpos]; rw [List.length_cons] at hstop; omega)
          have hpiped : d.readsPipe = true := hlast.2.2.1.trans hstep.piped
          rw [hpiped] at hpipe
          simp at hpipe
  · obtain ⟨hbegun, hsame, hpiped, hwords⟩ := command_of_quiet h hbar hquiet hd hstop
    obtain ⟨-, hcalm⟩ := quiet_run hbar hquiet
    have hidle : ¬σ.Begun := by
      intro hb
      have hbefore := h.started hb
      rw [(hcalm.begun hb).2] at hsame
      omega
    refine ⟨⟨?_, hidle, hpiped ▸ hpipe⟩, hwords⟩
    have hquoted : ¬σ.mode.Quoted := fun hq => hidle (Or.inl (h.quoted hq))
    cases hm : σ.mode with
    | plain => rfl
    | escaped => exact absurd hm hescaped
    | single => exact absurd (Or.inl hm) hquoted
    | double => exact absurd (Or.inr (Or.inl hm)) hquoted
    | doubleEscaped => exact absurd (Or.inr (Or.inr hm)) hquoted
    | comment => exact absurd ((hcalm.comment hm).2 hbegun) hidle
    | bar => exact absurd hm hbar

theorem not_escaped_of_step (hc : c ≠ '\\') : (σ.step c).1.mode ≠ .escaped := by
  have hplain : ∀ ρ : State, ρ.mode = .plain → (ρ.plainStep c).1.mode ≠ .escaped := by
    intro ρ hm
    have hend : ρ.endWord.mode = .plain := by rw [endWord_mode, hm]
    have hput : (ρ.put c).mode = .plain := hm
    apply plainStep_cases (P := fun r => r.1.mode ≠ .escaped)
    case escape => exact fun h => absurd h hc
    case blank => intro _; rw [hend]; simp
    case redirect =>
      intro _
      show ρ.endWord.mode ≠ .escaped
      rw [hend]
      simp
    case other => rw [hput]; simp
    all_goals
      intro _
      simp [openQuote, newline, clear]
  show (σ.read c).1.mode ≠ .escaped
  unfold read
  cases hm : σ.mode with
  | plain => exact hplain σ hm
  | escaped => simp only; split_ifs <;> simp
  | single => simp only; split_ifs <;> simp [put, hm]
  | double => simp only [if_neg hc]; split_ifs <;> simp [put, hm]
  | doubleEscaped => simp only; split_ifs <;> simp
  | comment => simp only; split_ifs <;> simp [newline, clear, hm]
  | bar =>
    simp only
    split_ifs
    · simp [clear]
    · exact hplain _ rfl

end State

end PosixShell
