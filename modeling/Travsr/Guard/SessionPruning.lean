import Mathlib.Data.List.GetD
import Travsr.Guard.Valve

namespace Travsr.Guard

/-! ### The 64th newest stamp -/

section Ranks

variable {l : List Nat} {k : Nat}

/-- The entry at place `k` from the top of a sorted list is at most `u` exactly if fewer than `k`
entries are above `u`. -/
theorem getD_le_iff_countP (hl : l.Pairwise (· ≤ ·)) (hk : 0 < k) (hle : k ≤ l.length) (u : Nat) :
    l.getD (l.length - k) 0 ≤ u ↔ l.countP (fun x => u < x) < k := by
  have hpos : l.length - k < l.length := by omega
  have hcount : l.countP (fun x => u < x) =
      (l.take (l.length - k)).countP (fun x => u < x) + (l.drop (l.length - k)).countP (fun x => u < x) := by
    rw [← List.countP_append, List.take_append_drop]
  have hdrop : l.drop (l.length - k) = l[l.length - k] :: l.drop (l.length - k + 1) :=
    List.drop_eq_getElem_cons hpos
  have hsplit : (l.take (l.length - k) ++ l.drop (l.length - k)).Pairwise (· ≤ ·) := by
    rw [List.take_append_drop]
    exact hl
  obtain ⟨-, htail, hbelow⟩ := List.pairwise_append.mp hsplit
  rw [hdrop] at htail hbelow
  rw [List.getD_eq_getElem _ _ hpos]
  constructor
  · intro hu
    have hzero : (l.take (l.length - k)).countP (fun x => u < x) = 0 := by
      rw [List.countP_eq_zero]
      intro x hx
      have hx' := hbelow x hx _ List.mem_cons_self
      simp only [decide_eq_true_eq, not_lt]
      omega
    have htop : (l.drop (l.length - k + 1)).countP (fun x => u < x) ≤ k - 1 := by
      refine List.countP_le_length.trans ?_
      rw [List.length_drop]
      omega
    rw [hcount, hzero, hdrop, List.countP_cons_of_neg (by simpa using hu)]
    omega
  · intro hfew
    by_contra hu
    have hall : (l.drop (l.length - k)).countP (fun x => u < x) = (l.drop (l.length - k)).length := by
      rw [List.countP_eq_length, hdrop]
      intro x hx
      rw [decide_eq_true_eq]
      rcases List.mem_cons.mp hx with rfl | hx
      · omega
      · have hx' := List.rel_of_pairwise_cons htail hx
        omega
    rw [List.length_drop] at hall
    omega

end Ranks

def newer (sessions : OrdMap String SessionState) (stamp : Nat) : Nat :=
  sessions.entries.countP fun e => stamp < e.2.updated

def asNew (sessions : OrdMap String SessionState) (stamp : Nat) : Nat :=
  sessions.entries.countP fun e => stamp ≤ e.2.updated

variable {sessions : OrdMap String SessionState} {stamp now : Nat} {store : Store}

theorem keepFrom_le_iff (hsize : MAX_SESSIONS < sessions.size) :
    keepFrom sessions ≤ stamp ↔ newer sessions stamp < MAX_SESSIONS := by
  have hperm := List.perm_insertionSort (· ≤ ·) (sessions.values.map SessionState.updated)
  have hlen : ((sessions.values.map SessionState.updated).insertionSort (· ≤ ·)).length =
      sessions.size := by
    rw [hperm.length_eq, List.length_map, OrdMap.values, List.length_map]
    rfl
  have hnewer : ((sessions.values.map SessionState.updated).insertionSort (· ≤ ·)).countP
      (fun x => stamp < x) = newer sessions stamp := by
    rw [hperm.countP_eq, OrdMap.values, List.map_map, List.countP_map]
    rfl
  have hrank := getD_le_iff_countP (List.pairwise_insertionSort (· ≤ ·)
    (sessions.values.map SessionState.updated)) (by decide : 0 < MAX_SESSIONS)
    (by rw [hlen]; exact hsize.le) stamp
  rw [hnewer] at hrank
  exact hrank

theorem le_countP_keepFrom (hsize : MAX_SESSIONS < sessions.size) :
    MAX_SESSIONS ≤ asNew sessions (keepFrom sessions) := by
  cases hfrom : keepFrom sessions with
  | zero =>
    have hall : asNew sessions 0 = sessions.size :=
      List.countP_eq_length.mpr fun e _ => decide_eq_true (Nat.zero_le _)
    rw [hall]
    exact hsize.le
  | succ t =>
    have hmany : ¬newer sessions t < MAX_SESSIONS := by
      rw [← keepFrom_le_iff hsize, hfrom]
      omega
    exact not_lt.mp hmany

theorem capSessions_entries (hsize : MAX_SESSIONS < sessions.size) :
    (capSessions sessions).entries =
      (sessions.entries.filter fun e => keepFrom sessions ≤ e.2.updated).take MAX_SESSIONS := by
  rw [capSessions, if_pos hsize]
  exact OrdMap.retainList_upTo

theorem capSessions_size (hsize : MAX_SESSIONS < sessions.size) :
    (capSessions sessions).size = MAX_SESSIONS := by
  rw [OrdMap.size, capSessions_entries hsize, List.length_take, ← List.countP_eq_length_filter]
  exact Nat.min_eq_left (le_countP_keepFrom hsize)

theorem capSessions_sublist (hsize : MAX_SESSIONS < sessions.size) :
    (capSessions sessions).entries.Sublist sessions.entries := by
  rw [capSessions_entries hsize]
  exact (List.take_sublist _ _).trans List.filter_sublist

theorem before_keepFrom (hsize : MAX_SESSIONS < sessions.size) (session : String) :
    sessions.before (fun e => keepFrom sessions ≤ e.2.updated) session =
      sessions.before (fun e => newer sessions e.2.updated < MAX_SESSIONS) session := by
  unfold OrdMap.before
  simp only [keepFrom_le_iff hsize]

/-! ### What a save keeps of the newest sessions -/

/-- Of more than 64 live sessions a save keeps exactly 64, none of them older than a dropped one. -/
def KeepsNewest (now : Nat) (store : Store) : Prop :=
  MAX_SESSIONS < (store.live now).size →
    (prune now store).sessions.size = MAX_SESSIONS ∧
      ∀ dropped ∈ (store.live now).entries, (prune now store).sessions.get? dropped.1 = none →
        ∀ kept ∈ (prune now store).sessions.entries, dropped.2.updated ≤ kept.2.updated

instance (now : Nat) (store : Store) : Decidable (KeepsNewest now store) :=
  inferInstanceAs (Decidable (_ → _))

/-- A session is among the newest, no more than 63 being as new, and the sessions with smaller ids
that have fewer than 64 newer ones fill all the places before it. -/
def TiesFill (live : OrdMap String SessionState) : Prop :=
  ∃ e ∈ live.entries, asNew live e.2.updated < MAX_SESSIONS ∧
    MAX_SESSIONS ≤ live.before (fun x => newer live x.2.updated < MAX_SESSIONS) e.1

/-- A session with the stamp finds a place: fewer than 64 are newer, and so few of those with
smaller ids have fewer than 64 newer ones. -/
def FindsPlace (live : OrdMap String SessionState) (session : String) (stamp : Nat) : Prop :=
  live.size ≤ MAX_SESSIONS ∨
    newer live stamp < MAX_SESSIONS ∧
      live.before (fun x => newer live x.2.updated < MAX_SESSIONS) session < MAX_SESSIONS

theorem withinCap_iff {session : String} {s : SessionState} :
    WithinCap sessions session s ↔ FindsPlace sessions session s.updated := by
  unfold WithinCap FindsPlace
  by_cases hsize : sessions.size ≤ MAX_SESSIONS
  · exact iff_of_true (Or.inl hsize) (Or.inl hsize)
  · rw [or_iff_right hsize, or_iff_right hsize, keepFrom_le_iff (not_le.mp hsize),
      before_keepFrom (not_le.mp hsize)]

theorem prune_entry {e : String × SessionState} (h : e ∈ (prune now store).sessions.entries) :
    ∃ k ∈ (capSessions (store.live now)).entries, k.1 = e.1 ∧ k.2.updated = e.2.updated := by
  obtain ⟨k, hk, rfl⟩ := List.mem_map.mp h
  exact ⟨k, hk, rfl, rfl⟩

theorem entry_prune {k : String × SessionState} (h : k ∈ (capSessions (store.live now)).entries) :
    ∃ e ∈ (prune now store).sessions.entries, k.1 = e.1 ∧ k.2.updated = e.2.updated :=
  ⟨_, List.mem_map_of_mem h, rfl, rfl⟩

theorem prune_size : (prune now store).sessions.size = (capSessions (store.live now)).size :=
  List.length_map _

theorem get?_prune {session : String} :
    (prune now store).sessions.get? session = none ↔
      ∀ s, (store.live now).get? session = some s → ¬FindsPlace (store.live now) session s.updated := by
  have hmap : (prune now store).sessions.get? session =
      ((capSessions (store.live now)).get? session).map _ := OrdMap.get?_mapValues
  rw [hmap, Option.map_eq_none_iff, Option.eq_none_iff_forall_ne_some]
  refine forall_congr' fun s => ?_
  rw [Ne, get?_capSessions, withinCap_iff, not_and]

/-- The newest are kept exactly if ties for the last places do not fill them all before a session
that is newer. -/
theorem keepsNewest_iff :
    KeepsNewest now store ↔
      ¬(MAX_SESSIONS < (store.live now).size ∧ TiesFill (store.live now)) := by
  rw [not_and, KeepsNewest]
  refine forall_congr' fun hsize => ?_
  have hkept : (prune now store).sessions.size = MAX_SESSIONS :=
    prune_size.trans (capSessions_size hsize)
  rw [and_iff_right hkept]
  constructor
  · intro hnewest hfill
    obtain ⟨e, he, hasNew, hbefore⟩ := hfill
    have hdropped : (prune now store).sessions.get? e.1 = none := by
      rw [get?_prune]
      intro s _ hplace
      rcases hplace with hsmall | ⟨-, hplace⟩
      · exact absurd hsize (not_lt.mpr hsmall)
      · exact absurd hplace (not_lt.mpr hbefore)
    -- 64 kept sessions as new as the dropped one would be 64 live ones
    have hall : (capSessions (store.live now)).entries.countP (fun k => e.2.updated ≤ k.2.updated) =
        (capSessions (store.live now)).entries.length := by
      rw [List.countP_eq_length]
      intro k hk
      obtain ⟨kept, hmem, -, hstamp⟩ := entry_prune hk
      rw [decide_eq_true_eq, hstamp]
      exact hnewest e he hdropped kept hmem
    have hle := (capSessions_sublist hsize).countP_le (p := fun k => e.2.updated ≤ k.2.updated)
    have hlen : (capSessions (store.live now)).entries.length = MAX_SESSIONS := capSessions_size hsize
    rw [hall, hlen] at hle
    exact absurd hasNew (not_lt.mpr hle)
  · intro hties e he hdropped kept hmem
    by_contra hold
    obtain ⟨k, hk, -, hstamp⟩ := prune_entry hmem
    rw [capSessions_entries hsize] at hk
    have hfrom := of_decide_eq_true (List.mem_filter.mp (List.mem_of_mem_take hk)).2
    have hlive : (store.live now).get? e.1 = some e.2 := OrdMap.get?_eq_some.mpr he
    have hplace := get?_prune.mp hdropped e.2 hlive
    have hnewer : newer (store.live now) e.2.updated < MAX_SESSIONS :=
      (keepFrom_le_iff hsize).mp (by omega)
    have hasNew : asNew (store.live now) e.2.updated < MAX_SESSIONS := by
      have hpred : keepFrom (store.live now) ≤ e.2.updated - 1 := by omega
      have hfew := (keepFrom_le_iff hsize).mp hpred
      have hsame : asNew (store.live now) e.2.updated = newer (store.live now) (e.2.updated - 1) := by
        unfold asNew newer
        congr 1
        funext x
        rw [decide_eq_decide]
        omega
      rw [hsame]
      exact hfew
    refine hties ⟨e, he, hasNew, ?_⟩
    by_contra hbefore
    exact hplace (Or.inr ⟨hnewer, not_le.mp hbefore⟩)

/-- The file that the valve is left with holds an entry of the session. -/
def Valve.Holds (v : Valve) (session : String) : Prop :=
  ∃ m ∈ v.file, ∃ store ∈ m.store, (store.sessions.get? session).isSome

theorem holds_step {v : Valve} {c : Call} {p : String × String} (hc : c.pair = some p) :
    (step v c).Holds p.1 ↔
      c.clock.save - SESSION_TTL_SECS ≤ c.clock.entry ∧
        FindsPlace ((recorded (load v.file) c p).live c.clock.save) p.1 c.clock.entry := by
  have hput : (recorded (load v.file) c p).sessions.get? p.1 =
      some (c.touched ((load v.file).entry p.1) p.2) := by
    rw [recorded, Store.put, OrdMap.get?_insert, if_pos rfl]
  have hholds : (step v c).Holds p.1 ↔
      ¬(prune c.clock.save (recorded (load v.file) c p)).sessions.get? p.1 = none := by
    rw [step_of_pair hc, Valve.Holds, save]
    simp only [Option.mem_def, Option.some.injEq, exists_eq_left', Option.isSome_iff_ne_none, ne_eq]
  have hlive (s : SessionState) :
      ((recorded (load v.file) c p).live c.clock.save).get? p.1 = some s ↔
        c.touched ((load v.file).entry p.1) p.2 = s ∧ fresh c.clock.save s := by
    rw [Store.live, OrdMap.get?_retain, hput, Option.some.injEq]
  rw [hholds, get?_prune]
  simp only [hlive, and_imp, forall_eq', not_forall, not_not, exists_prop]
  exact and_congr decide_eq_true_iff Iff.rfl

/-- Pruning keeps the newest exactly if ties do not fill the places, and a call's session outlives
the call's own save exactly if the save finds it fresh and with a place left. -/
theorem save_keeps_newest_iff (now : Nat) (store : Store) (v : Valve) (c : Call) :
    (KeepsNewest now store ↔
        ¬(MAX_SESSIONS < (store.live now).size ∧ TiesFill (store.live now))) ∧
      ∀ p, c.pair = some p →
        ((step v c).Holds p.1 ↔
          c.clock.save - SESSION_TTL_SECS ≤ c.clock.entry ∧
            FindsPlace ((recorded (load v.file) c p).live c.clock.save) p.1 c.clock.entry) :=
  ⟨keepsNewest_iff, fun _ hc => holds_step hc⟩

theorem first_search_holds : (step ⟨none, []⟩ (sameSearch 70)).Holds "~" :=
  ((save_keeps_newest_iff 70 default ⟨none, []⟩ (sameSearch 70)).2 ("~", "charge")
    (by decide +kernel)).mpr ⟨by decide, Or.inl (by decide +kernel)⟩

/-- 64 sessions, the two oldest with one stamp, fill the places before the newest one, whose id is
the greatest. -/
theorem newest_dropped_by_tie :
    ¬((∀ now store, KeepsNewest now store) ∧
      ∀ v c p, c.pair = some p → (step v c).Holds p.1) := by
  intro h
  exact absurd (h.1 70 (recorded busyStore (sameSearch 70) ("~", "charge"))) (by decide +kernel)

end Travsr.Guard
