import Mathlib.Data.List.Nodup
import Travsr.Lib.Runs

/-! One worker thread, a bounded queue and any number of callers, each with a deadline. -/

namespace Travsr.PluginHost.HookWorker

def HOOK_QUEUE_DEPTH : Nat := 2

def KNN_CALL_TIMEOUT_MS : Nat := 600

variable {Req Resp : Type}

/-- A request on its way: the reply channel made for it, and when its caller gives up. -/
structure Entry (Req : Type) where
  reply : Nat
  req : Req
  deadline : Nat

/-- What the worker thread is at. -/
inductive Worker (Req : Type) where
  | idle
  | received (e : Entry Req)
  | handling (e : Entry Req)
  | died

/-- A reply channel: its sender is still held, has answered, or was dropped. -/
inductive Reply (Resp : Type) where
  | pending
  | answered (resp : Resp)
  | disconnected

/-- How far a call has come with its request. -/
inductive Call (Req Resp : Type) where
  | absent
  | made (e : Entry Req) (timeout : Nat)
  | sent (e : Entry Req) (timeout : Nat)
  | waiting (e : Entry Req) (expires : Nat)
  | returned (e : Entry Req) (resp : Option Resp)

/-- What became of a request that the worker took, and when. -/
inductive Fate where
  | skipped (time : Nat)
  | handled (time : Nat)

/-- The threads' shared state, and as a record of the run the requests accepted, what became of
those the worker took, and the answers it sent. -/
structure State (Req Resp : Type) where
  now : Nat
  queue : List (Entry Req)
  worker : Worker Req
  workerDied : Bool
  warnings : Nat
  calls : Nat → Call Req Resp
  replies : Nat → Reply Resp
  accepted : List (Entry Req)
  fates : List (Entry Req × Fate)
  answers : List (Entry Req × Resp)

/-- One step of one thread, or of the clock. -/
inductive Action (Req Resp : Type) where
  | tick (elapsed : Nat)
  | call (id : Nat) (req : Req) (timeout : Nat)
  | trySend (id : Nat)
  | recvTimeout (id : Nat)
  | receive (id : Nat)
  | expire (id : Nat)
  | recv
  | check
  | finish (resp : Option Resp)
  | panic

def State.setCall (s : State Req Resp) (id : Nat) (c : Call Req Resp) : State Req Resp :=
  { s with calls := Function.update s.calls id c }

def State.drop (s : State Req Resp) (es : List (Entry Req)) : State Req Resp :=
  { s with replies := fun id => if id ∈ es.map Entry.reply then .disconnected else s.replies id }

/-- `tx.try_send`. -/
def State.trySend (s : State Req Resp) (id : Nat) (e : Entry Req) (timeout : Nat) : State Req Resp :=
  match s.worker with
  | .died =>
    -- `worker_died.swap(true)`: only the first to see it warns
    { s.setCall id (.returned e none) with
      workerDied := true
      warnings := if s.workerDied then s.warnings else s.warnings + 1 }
  | _ =>
    if s.queue.length < HOOK_QUEUE_DEPTH then
      { s.setCall id (.sent e timeout) with
        queue := s.queue ++ [e]
        accepted := s.accepted ++ [e] }
    else s.setCall id (.returned e none)

def State.step (s : State Req Resp) : Action Req Resp → State Req Resp
  | .tick elapsed => { s with now := s.now + elapsed }
  | .call id req timeout =>
    match s.calls id with
    | .absent => s.setCall id (.made ⟨id, req, s.now + timeout⟩ timeout)
    | _ => s
  | .trySend id =>
    match s.calls id with
    | .made e timeout => s.trySend id e timeout
    | _ => s
  | .recvTimeout id =>
    match s.calls id with
    | .sent e timeout => s.setCall id (.waiting e (s.now + timeout))
    | _ => s
  | .receive id =>
    match s.calls id, s.replies id with
    | .waiting e _, .answered resp => s.setCall id (.returned e (some resp))
    | .waiting e _, .disconnected => s.setCall id (.returned e none)
    | _, _ => s
  | .expire id =>
    match s.calls id, s.replies id with
    | .waiting e expires, .pending =>
      if expires ≤ s.now then s.setCall id (.returned e none) else s
    | _, _ => s
  | .recv =>
    match s.worker, s.queue with
    | .idle, e :: queue => { s with worker := .received e, queue := queue }
    | _, _ => s
  | .check =>
    match s.worker with
    | .received e =>
      if e.deadline ≤ s.now then
        { s.drop [e] with worker := .idle, fates := s.fates ++ [(e, .skipped s.now)] }
      else { s with worker := .handling e, fates := s.fates ++ [(e, .handled s.now)] }
    | _ => s
  | .finish resp =>
    match s.worker, resp with
    | .handling e, some resp =>
      { s with
        worker := .idle
        replies := Function.update s.replies e.reply (.answered resp)
        answers := s.answers ++ [(e, resp)] }
    | .handling e, none => { s.drop [e] with worker := .idle }
    | _, _ => s
  | .panic =>
    -- the receiver goes with the thread, and what is queued goes with the receiver
    match s.worker with
    | .handling e => { s.drop (e :: s.queue) with worker := .died, queue := [] }
    | _ => s

def State.start : State Req Resp where
  now := 0
  queue := []
  worker := .idle
  workerDied := false
  warnings := 0
  calls := fun _ => .absent
  replies := fun _ => .pending
  accepted := []
  fates := []
  answers := []

/-! ### The effects of a step -/

/-- What one step can do, its guards included. -/
inductive Effect (s : State Req Resp) : State Req Resp → Prop
  | same : Effect s s
  | tick (elapsed : Nat) : Effect s { s with now := s.now + elapsed }
  | call {id : Nat} (req : Req) (timeout : Nat) : s.calls id = .absent →
    Effect s (s.setCall id (.made ⟨id, req, s.now + timeout⟩ timeout))
  | gone {id timeout : Nat} {e : Entry Req} : s.calls id = .made e timeout → s.worker = .died →
    Effect s { s.setCall id (.returned e none) with
      workerDied := true
      warnings := if s.workerDied then s.warnings else s.warnings + 1 }
  | accept {id timeout : Nat} {e : Entry Req} : s.calls id = .made e timeout → s.worker ≠ .died →
    s.queue.length < HOOK_QUEUE_DEPTH →
    Effect s { s.setCall id (.sent e timeout) with
      queue := s.queue ++ [e]
      accepted := s.accepted ++ [e] }
  | shed {id timeout : Nat} {e : Entry Req} : s.calls id = .made e timeout →
    ¬ s.queue.length < HOOK_QUEUE_DEPTH → Effect s (s.setCall id (.returned e none))
  | wait {id timeout : Nat} {e : Entry Req} : s.calls id = .sent e timeout →
    Effect s (s.setCall id (.waiting e (s.now + timeout)))
  | receive {id expires : Nat} {e : Entry Req} {resp : Resp} : s.calls id = .waiting e expires →
    s.replies id = .answered resp → Effect s (s.setCall id (.returned e (some resp)))
  | hangUp {id expires : Nat} {e : Entry Req} : s.calls id = .waiting e expires →
    s.replies id = .disconnected → Effect s (s.setCall id (.returned e none))
  | expire {id expires : Nat} {e : Entry Req} : s.calls id = .waiting e expires → expires ≤ s.now →
    Effect s (s.setCall id (.returned e none))
  | recv {e : Entry Req} {queue : List (Entry Req)} : s.worker = .idle → s.queue = e :: queue →
    Effect s { s with worker := .received e, queue := queue }
  | skip {e : Entry Req} : s.worker = .received e → e.deadline ≤ s.now →
    Effect s { s.drop [e] with worker := .idle, fates := s.fates ++ [(e, .skipped s.now)] }
  | handle {e : Entry Req} : s.worker = .received e → s.now < e.deadline →
    Effect s { s with worker := .handling e, fates := s.fates ++ [(e, .handled s.now)] }
  | answer {e : Entry Req} (resp : Resp) : s.worker = .handling e →
    Effect s { s with
      worker := .idle
      replies := Function.update s.replies e.reply (.answered resp)
      answers := s.answers ++ [(e, resp)] }
  | barren {e : Entry Req} : s.worker = .handling e → Effect s { s.drop [e] with worker := .idle }
  | panic {e : Entry Req} : s.worker = .handling e →
    Effect s { s.drop (e :: s.queue) with worker := .died, queue := [] }

theorem effect (s : State Req Resp) (a : Action Req Resp) : Effect s (s.step a) := by
  cases a with
  | tick elapsed => exact .tick elapsed
  | call id req timeout =>
    simp only [State.step]
    split
    · case h_1 hcall => exact .call req timeout hcall
    · exact .same
  | trySend id =>
    simp only [State.step]
    split
    · case h_1 e timeout hcall =>
      rw [State.trySend]
      split
      · case h_1 hdied => exact .gone hcall hdied
      · case h_2 halive =>
        split_ifs with hroom
        · exact .accept hcall halive hroom
        · exact .shed hcall hroom
    · exact .same
  | recvTimeout id =>
    simp only [State.step]
    split
    · case h_1 hcall => exact .wait hcall
    · exact .same
  | receive id =>
    simp only [State.step]
    split
    · case h_1 hcall hreply => exact .receive hcall hreply
    · case h_2 hcall hreply => exact .hangUp hcall hreply
    · exact .same
  | expire id =>
    simp only [State.step]
    split
    · case h_1 hcall _ =>
      split_ifs with hlate
      · exact .expire hcall hlate
      · exact .same
    · exact .same
  | recv =>
    simp only [State.step]
    split
    · case h_1 hidle hqueue => exact .recv hidle hqueue
    · exact .same
  | check =>
    simp only [State.step]
    split
    · case h_1 hreceived =>
      split_ifs with hlate
      · exact .skip hreceived hlate
      · exact .handle hreceived (Nat.lt_of_not_le hlate)
    · exact .same
  | finish resp =>
    simp only [State.step]
    split
    · case h_1 resp hhandling => exact .answer resp hhandling
    · case h_2 hhandling => exact .barren hhandling
    · exact .same
  | panic =>
    simp only [State.step]
    split
    · case h_1 hhandling => exact .panic hhandling
    · exact .same

variable {s s' : State Req Resp}

/-! ### The worker's side -/

def Worker.hand : Worker Req → List (Entry Req)
  | .received e => [e]
  | _ => []

def Worker.busy : Worker Req → List (Entry Req)
  | .handling e => [e]
  | _ => []

def Fate.isHandled : Fate → Bool
  | .handled _ => true
  | .skipped _ => false

def Fate.Timely (e : Entry Req) : Fate → Prop
  | .skipped time => e.deadline ≤ time
  | .handled time => time < e.deadline

def handledEntries (fates : List (Entry Req × Fate)) : List (Entry Req) :=
  (fates.filter fun p => p.2.isHandled).map Prod.fst

@[simp] theorem handledEntries_append (fates more : List (Entry Req × Fate)) :
    handledEntries (fates ++ more) = handledEntries fates ++ handledEntries more := by
  simp [handledEntries]

/-- The worker takes the requests in the order they were accepted in, each in time or not at all,
and answers those it has handled, each at most once. -/
structure Served (s : State Req Resp) : Prop where
  depth : s.queue.length ≤ HOOK_QUEUE_DEPTH
  order : s.fates.map Prod.fst ++ s.worker.hand ++ s.queue <+: s.accepted
  whole : s.worker ≠ .died → s.fates.map Prod.fst ++ s.worker.hand ++ s.queue = s.accepted
  timely : ∀ p ∈ s.fates, p.2.Timely p.1
  once : ∃ settled, handledEntries s.fates = settled ++ s.worker.busy ∧
    (s.answers.map Prod.fst).Sublist settled

theorem Served.start : Served (State.start : State Req Resp) := by
  refine ⟨by simp [State.start], by simp [State.start, Worker.hand], ?_, by simp [State.start], ?_⟩
  · simp [State.start, Worker.hand]
  · exact ⟨[], by simp [State.start, handledEntries, Worker.busy], by simp [State.start]⟩

theorem Served.step (h : Served s) (he : Effect s s') : Served s' := by
  cases he with
  | same => exact h
  | tick elapsed => exact ⟨h.depth, h.order, h.whole, h.timely, h.once⟩
  | call req timeout hcall => exact ⟨h.depth, h.order, h.whole, h.timely, h.once⟩
  | gone hcall hdied => exact ⟨h.depth, h.order, h.whole, h.timely, h.once⟩
  | shed hcall hfull => exact ⟨h.depth, h.order, h.whole, h.timely, h.once⟩
  | wait hcall => exact ⟨h.depth, h.order, h.whole, h.timely, h.once⟩
  | receive hcall hreply => exact ⟨h.depth, h.order, h.whole, h.timely, h.once⟩
  | hangUp hcall hreply => exact ⟨h.depth, h.order, h.whole, h.timely, h.once⟩
  | expire hcall hlate => exact ⟨h.depth, h.order, h.whole, h.timely, h.once⟩
  | @accept id timeout e hcall halive hroom =>
    have hwhole := h.whole halive
    refine ⟨?_, ?_, fun _ => ?_, h.timely, h.once⟩
    · simp only [List.length_append, List.length_singleton]
      omega
    · simp only [State.setCall, ← List.append_assoc, hwhole]
      exact List.prefix_refl _
    · simp only [State.setCall, ← List.append_assoc, hwhole]
  | recv hidle hqueue =>
    have hdepth := h.depth
    have horder := h.order
    have hwhole := h.whole (by simp [hidle])
    have honce := h.once
    rw [hqueue, List.length_cons] at hdepth
    rw [hidle, hqueue] at horder hwhole
    rw [hidle] at honce
    refine ⟨Nat.le_of_succ_le hdepth, ?_, fun _ => ?_, h.timely, ?_⟩
    · simpa [Worker.hand] using horder
    · simpa [Worker.hand] using hwhole
    · simpa [Worker.busy] using honce
  | @skip e hreceived hlate =>
    have hwhole := h.whole (by simp [hreceived])
    have honce := h.once
    rw [hreceived] at hwhole honce
    refine ⟨h.depth, ?_, fun _ => ?_, ?_, ?_⟩
    · simp only [State.drop, ← hwhole]
      simp [Worker.hand]
    · simp only [State.drop, ← hwhole]
      simp [Worker.hand]
    · intro p hp
      rcases List.mem_append.mp hp with hp | hp
      · exact h.timely p hp
      · rw [List.mem_singleton.mp hp]
        exact hlate
    · simpa [State.drop, Worker.busy, handledEntries, Fate.isHandled] using honce
  | @handle e hreceived hintime =>
    have hwhole := h.whole (by simp [hreceived])
    obtain ⟨settled, hsettled, hanswers⟩ := h.once
    rw [hreceived] at hwhole hsettled
    refine ⟨h.depth, ?_, fun _ => ?_, ?_, ⟨settled, ?_, hanswers⟩⟩
    · simp [Worker.hand, ← hwhole]
    · simp [Worker.hand, ← hwhole]
    · intro p hp
      rcases List.mem_append.mp hp with hp | hp
      · exact h.timely p hp
      · rw [List.mem_singleton.mp hp]
        exact hintime
    · rw [handledEntries_append, hsettled]
      simp [Worker.busy, handledEntries, Fate.isHandled]
  | @answer e resp hhandling =>
    have horder := h.order
    have hwhole := h.whole (by simp [hhandling])
    obtain ⟨settled, hsettled, hanswers⟩ := h.once
    rw [hhandling] at horder hwhole hsettled
    refine ⟨h.depth, by simpa [Worker.hand] using horder, fun _ => by simpa [Worker.hand] using hwhole,
      h.timely, ⟨settled ++ [e], ?_, ?_⟩⟩
    · simpa [Worker.busy] using hsettled
    · rw [List.map_append]
      exact hanswers.append (List.Sublist.refl _)
  | @barren e hhandling =>
    have horder := h.order
    have hwhole := h.whole (by simp [hhandling])
    obtain ⟨settled, hsettled, hanswers⟩ := h.once
    rw [hhandling] at horder hwhole hsettled
    refine ⟨h.depth, by simpa [State.drop, Worker.hand] using horder,
      fun _ => by simpa [State.drop, Worker.hand] using hwhole, h.timely, ⟨settled ++ [e], ?_, ?_⟩⟩
    · simpa [State.drop, Worker.busy] using hsettled
    · exact hanswers.trans (List.sublist_append_left _ _)
  | @panic e hhandling =>
    have horder := h.order
    obtain ⟨settled, hsettled, hanswers⟩ := h.once
    rw [hhandling] at horder hsettled
    refine ⟨by simp, ?_, fun halive => absurd rfl halive, h.timely, ⟨settled ++ [e], ?_, ?_⟩⟩
    · have hshort : s.fates.map Prod.fst <+: s.fates.map Prod.fst ++ [] ++ s.queue := by simp
      simpa [State.drop, Worker.hand] using hshort.trans horder
    · simpa [State.drop, Worker.busy] using hsettled
    · exact hanswers.trans (List.sublist_append_left _ _)

/-! ### The callers' side -/

def Call.submitted : Call Req Resp → Option (Entry Req)
  | .sent e _ | .waiting e _ | .returned e _ => some e
  | _ => none

/-- Every call has a request of its own, and every accepted request is a call's. -/
structure Kept (s : State Req Resp) : Prop where
  made : ∀ id e timeout, s.calls id = .made e timeout → e.reply = id
  submitted : ∀ id e, (s.calls id).submitted = some e → e.reply = id
  asked : ∀ e ∈ s.accepted, (s.calls e.reply).submitted = some e
  nodup : (s.accepted.map Entry.reply).Nodup

theorem Kept.start : Kept (State.start : State Req Resp) := by
  refine ⟨?_, ?_, ?_, ?_⟩ <;> simp [State.start, Call.submitted]

theorem Kept.setCall (h : Kept s) {id : Nat} {c : Call Req Resp}
    (hsub : ∀ e, (s.calls id).submitted = some e → c.submitted = some e)
    (hown : ∀ e, c.submitted = some e → e.reply = id)
    (hmade : ∀ e timeout, c = .made e timeout → e.reply = id) : Kept (s.setCall id c) := by
  refine ⟨?_, ?_, ?_, h.nodup⟩
  · intro i e timeout hcall
    by_cases hi : i = id
    · subst hi
      exact hmade e timeout (by simpa [State.setCall] using hcall)
    · exact h.made i e timeout (by simpa [State.setCall, hi] using hcall)
  · intro i e hcall
    by_cases hi : i = id
    · subst hi
      exact hown e (by simpa [State.setCall] using hcall)
    · exact h.submitted i e (by simpa [State.setCall, hi] using hcall)
  · intro e he
    by_cases hi : e.reply = id
    · have := hsub e (hi ▸ h.asked e he)
      simpa [State.setCall, hi] using this
    · simpa [State.setCall, hi] using h.asked e he

theorem Kept.setCall_made (h : Kept s) {id timeout : Nat} {e : Entry Req}
    (hcall : s.calls id = .made e timeout) {c : Call Req Resp} (hc : c.submitted = some e) :
    Kept (s.setCall id c) := by
  apply h.setCall
  · simp [hcall, Call.submitted]
  · simpa [hc] using h.made id e timeout hcall
  · intro e' timeout' heq
    simp [heq, Call.submitted] at hc

theorem Kept.setCall_on (h : Kept s) {id : Nat} {e : Entry Req} {c : Call Req Resp}
    (hcall : (s.calls id).submitted = some e) (hc : c.submitted = some e) : Kept (s.setCall id c) := by
  apply h.setCall
  · simp [hcall, hc]
  · simpa [hc] using h.submitted id e hcall
  · intro e' timeout' heq
    simp [heq, Call.submitted] at hc

theorem Kept.not_accepted (h : Kept s) (id : Nat) (hcall : (s.calls id).submitted = none) :
    id ∉ s.accepted.map Entry.reply := by
  intro hmem
  obtain ⟨e, he, rfl⟩ := List.mem_map.mp hmem
  simp [h.asked e he] at hcall

theorem Kept.step (h : Kept s) (he : Effect s s') : Kept s' := by
  cases he with
  | same => exact h
  | tick elapsed => exact ⟨h.made, h.submitted, h.asked, h.nodup⟩
  | recv hidle hqueue => exact ⟨h.made, h.submitted, h.asked, h.nodup⟩
  | skip hreceived hlate => exact ⟨h.made, h.submitted, h.asked, h.nodup⟩
  | handle hreceived hintime => exact ⟨h.made, h.submitted, h.asked, h.nodup⟩
  | answer resp hhandling => exact ⟨h.made, h.submitted, h.asked, h.nodup⟩
  | barren hhandling => exact ⟨h.made, h.submitted, h.asked, h.nodup⟩
  | panic hhandling => exact ⟨h.made, h.submitted, h.asked, h.nodup⟩
  | call req timeout hcall =>
    apply h.setCall
    · simp [hcall, Call.submitted]
    · simp [Call.submitted]
    · intro e timeout' heq
      obtain ⟨rfl, -⟩ := Call.made.inj heq
      simp
  | @gone id timeout e hcall hdied =>
    have := h.setCall_made hcall (c := .returned e none) (by simp [Call.submitted])
    exact ⟨this.made, this.submitted, this.asked, this.nodup⟩
  | shed hcall hfull => exact h.setCall_made hcall (by simp [Call.submitted])
  | @wait id timeout e hcall =>
    exact h.setCall_on (e := e) (by simp [hcall, Call.submitted]) (by simp [Call.submitted])
  | @receive id expires e resp hcall hreply =>
    exact h.setCall_on (e := e) (by simp [hcall, Call.submitted]) (by simp [Call.submitted])
  | @hangUp id expires e hcall hreply =>
    exact h.setCall_on (e := e) (by simp [hcall, Call.submitted]) (by simp [Call.submitted])
  | @expire id expires e hcall hlate =>
    exact h.setCall_on (e := e) (by simp [hcall, Call.submitted]) (by simp [Call.submitted])
  | @accept id timeout e hcall halive hroom =>
    have hset := h.setCall_made hcall (c := .sent e timeout) (by simp [Call.submitted])
    have hreply := h.made id e timeout hcall
    refine ⟨hset.made, hset.submitted, ?_, ?_⟩
    · intro x hx
      rcases List.mem_append.mp hx with hx | hx
      · exact hset.asked x hx
      · rw [List.mem_singleton.mp hx]
        simp [State.setCall, hreply, Call.submitted]
    · have hnew := h.not_accepted id (by simp [hcall, Call.submitted])
      rw [List.map_append, List.map_singleton, hreply]
      exact List.Nodup.append h.nodup (List.nodup_singleton _) (by simpa using hnew)

/-! ### The answers -/

/-- Why a call may come back without an answer: its deadline is over, the worker is gone, or the
handler had none. -/
def Excused (s : State Req Resp) (e : Entry Req) : Prop :=
  e.deadline ≤ s.now ∨ s.worker = .died ∨
    (e ∈ handledEntries s.fates ∧ e ∉ s.worker.busy ∧ e ∉ s.answers.map Prod.fst)

/-- A call's answer is the one to its own request, and no call comes back early without one. -/
structure Answered (s : State Req Resp) : Prop where
  warned : s.warnings = if s.workerDied then 1 else 0
  died : s.workerDied = true → s.worker = .died
  answered : ∀ id resp, s.replies id = .answered resp → ∃ e, e.reply = id ∧ (e, resp) ∈ s.answers
  dropped : ∀ id, s.replies id = .disconnected → ∃ e ∈ s.accepted, e.reply = id ∧ Excused s e
  made : ∀ id e timeout, s.calls id = .made e timeout → e.deadline ≤ s.now + timeout
  sent : ∀ id e timeout, s.calls id = .sent e timeout → e.deadline ≤ s.now + timeout
  waiting : ∀ id e expires, s.calls id = .waiting e expires → e.deadline ≤ expires
  returned : ∀ id e resp, s.calls id = .returned e (some resp) → (e, resp) ∈ s.answers
  empty : ∀ id e, s.calls id = .returned e none → e ∉ s.accepted ∨ Excused s e

theorem Answered.start : Answered (State.start : State Req Resp) := by
  refine ⟨?_, ?_, ?_, ?_, ?_, ?_, ?_, ?_, ?_⟩ <;> simp [State.start]

variable {e e' : Entry Req}

theorem Served.taken_mem (h : Served s) (he : e ∈ s.fates.map Prod.fst ++ s.worker.hand ++ s.queue) :
    e ∈ s.accepted := h.order.subset he

theorem mem_fates_of_handled (he : e ∈ handledEntries s.fates) : e ∈ s.fates.map Prod.fst :=
  (List.filter_sublist.map Prod.fst).subset he

theorem Served.busy_handled (h : Served s) (he : e ∈ s.worker.busy) : e ∈ handledEntries s.fates := by
  obtain ⟨settled, hsettled, -⟩ := h.once
  rw [hsettled]
  exact List.mem_append_right _ he

theorem Served.answer_accepted {resp : Resp} (h : Served s) (he : (e, resp) ∈ s.answers) : e ∈ s.accepted := by
  obtain ⟨settled, hsettled, hanswers⟩ := h.once
  have hmem : e ∈ handledEntries s.fates := by
    rw [hsettled]
    exact List.mem_append_left _ (hanswers.subset (List.mem_map_of_mem he))
  apply h.taken_mem
  simp only [List.append_assoc, List.mem_append]
  exact .inl (mem_fates_of_handled hmem)

theorem Kept.nodup_taken (hk : Kept s) (h : Served s) :
    (s.fates.map Prod.fst ++ s.worker.hand ++ s.queue).Nodup :=
  (List.Nodup.of_map _ hk.nodup).sublist h.order.sublist

theorem Kept.eq_of_submitted (hk : Kept s) {id : Nat} (hcall : (s.calls id).submitted = some e)
    (he : e' ∈ s.accepted) (hid : e'.reply = id) : e' = e := by
  have := hk.asked e' he
  rw [hid, hcall] at this
  exact (Option.some.inj this).symm

theorem Excused.step (hs : Served s) (hk : Kept s) (h : Excused s e) (he : Effect s s') : Excused s' e := by
  rcases h with hlate | hdied | ⟨hhandled, hbusy, hanswers⟩
  · left
    cases he with
    | tick elapsed => exact Nat.le_trans hlate (Nat.le_add_right _ _)
    | _ => exact hlate
  · right
    left
    cases he with
    | recv hidle _ => simp [hidle] at hdied
    | skip hreceived _ => simp [hreceived] at hdied
    | handle hreceived _ => simp [hreceived] at hdied
    | answer _ hhandling => simp [hhandling] at hdied
    | barren hhandling => simp [hhandling] at hdied
    | panic _ => simp
    | _ => simpa [State.setCall] using hdied
  · right
    right
    cases he with
    | recv hidle _ => exact ⟨hhandled, by simp [Worker.busy], hanswers⟩
    | skip hreceived _ =>
      exact ⟨by simp [hhandled], by simp [Worker.busy], hanswers⟩
    | @handle x hreceived _ =>
      refine ⟨by simp [hhandled], ?_, hanswers⟩
      have hnodup := hk.nodup_taken hs
      rw [hreceived] at hnodup
      have hne : e ≠ x := by
        simp only [Worker.hand, List.append_assoc, List.nodup_append] at hnodup
        exact hnodup.2.2 e (mem_fates_of_handled hhandled) x (by simp)
      simpa [Worker.busy] using hne
    | @answer x resp hhandling =>
      have hne : e ≠ x := by simpa [hhandling, Worker.busy] using hbusy
      refine ⟨hhandled, by simp [Worker.busy], ?_⟩
      rw [List.map_append, List.mem_append, not_or]
      exact ⟨hanswers, by simpa using hne⟩
    | barren _ => exact ⟨hhandled, by simp [Worker.busy], hanswers⟩
    | panic _ => exact ⟨hhandled, by simp [Worker.busy], hanswers⟩
    | _ => exact ⟨hhandled, hbusy, hanswers⟩

theorem Answered.carry (h : Answered s) (hs : Served s) (hk : Kept s) (he : Effect s s')
    (hcalls : s'.calls = s.calls) (hreplies : s'.replies = s.replies) (hnow : s.now ≤ s'.now)
    (hwarned : s'.warnings = s.warnings ∧ s'.workerDied = s.workerDied)
    (hdied : s.worker = .died → s'.worker = .died) (haccepted : s'.accepted = s.accepted)
    (hanswers : s'.answers = s.answers) : Answered s' := by
  constructor
  · rw [hwarned.1, hwarned.2]
    exact h.warned
  · rw [hwarned.2]
    exact fun hd => hdied (h.died hd)
  · rw [hreplies, hanswers]
    exact h.answered
  · rw [hreplies, haccepted]
    intro id hid
    obtain ⟨e, hmem, hreply, hexcused⟩ := h.dropped id hid
    exact ⟨e, hmem, hreply, hexcused.step hs hk he⟩
  · rw [hcalls]
    intro id e timeout hcall
    have := h.made id e timeout hcall
    omega
  · rw [hcalls]
    intro id e timeout hcall
    have := h.sent id e timeout hcall
    omega
  · rw [hcalls]
    exact h.waiting
  · rw [hcalls, hanswers]
    exact h.returned
  · rw [hcalls, haccepted]
    intro id e hcall
    exact (h.empty id e hcall).imp_right fun hexcused => hexcused.step hs hk he

/-- What is to be shown of one call that moves on. -/
structure CallAnswered (s : State Req Resp) (c : Call Req Resp) : Prop where
  made : ∀ e timeout, c = .made e timeout → e.deadline ≤ s.now + timeout
  sent : ∀ e timeout, c = .sent e timeout → e.deadline ≤ s.now + timeout
  waiting : ∀ e expires, c = .waiting e expires → e.deadline ≤ expires
  returned : ∀ e resp, c = .returned e (some resp) → (e, resp) ∈ s.answers
  empty : ∀ e, c = .returned e none → e ∉ s.accepted ∨ Excused s e

theorem Answered.setCall (h : Answered s) {id : Nat} {c : Call Req Resp} (hc : CallAnswered s c) :
    Answered (s.setCall id c) := by
  refine ⟨h.warned, h.died, h.answered, h.dropped, ?_, ?_, ?_, ?_, ?_⟩
  · intro i e timeout hcall
    by_cases hi : i = id
    · exact hc.made e timeout (by simpa [State.setCall, hi] using hcall)
    · exact h.made i e timeout (by simpa [State.setCall, hi] using hcall)
  · intro i e timeout hcall
    by_cases hi : i = id
    · exact hc.sent e timeout (by simpa [State.setCall, hi] using hcall)
    · exact h.sent i e timeout (by simpa [State.setCall, hi] using hcall)
  · intro i e expires hcall
    by_cases hi : i = id
    · exact hc.waiting e expires (by simpa [State.setCall, hi] using hcall)
    · exact h.waiting i e expires (by simpa [State.setCall, hi] using hcall)
  · intro i e resp hcall
    by_cases hi : i = id
    · exact hc.returned e resp (by simpa [State.setCall, hi] using hcall)
    · exact h.returned i e resp (by simpa [State.setCall, hi] using hcall)
  · intro i e hcall
    by_cases hi : i = id
    · exact hc.empty e (by simpa [State.setCall, hi] using hcall)
    · exact h.empty i e (by simpa [State.setCall, hi] using hcall)

theorem Answered.drop (h : Answered s) (es : List (Entry Req)) {t : State Req Resp}
    (ht : t = { s.drop es with worker := t.worker, queue := t.queue, fates := t.fates })
    (hdied : s.worker = .died → t.worker = .died)
    (hgo : ∀ e, Excused s e → Excused t e) (hes : ∀ e ∈ es, e ∈ s.accepted ∧ Excused t e) :
    Answered t := by
  rw [ht] at hdied hgo hes ⊢
  refine ⟨h.warned, fun hd => hdied (h.died hd), ?_, ?_, h.made, h.sent, h.waiting, h.returned, ?_⟩
  · intro id resp hreply
    simp only [State.drop] at hreply
    split_ifs at hreply
    exact h.answered id resp hreply
  · intro id hreply
    simp only [State.drop] at hreply
    split_ifs at hreply with hmem
    · obtain ⟨e, he, hid⟩ := List.mem_map.mp hmem
      exact ⟨e, (hes e he).1, hid, (hes e he).2⟩
    · obtain ⟨e, he, hid, hexcused⟩ := h.dropped id hreply
      exact ⟨e, he, hid, hgo e hexcused⟩
  · intro id e hcall
    exact (h.empty id e hcall).imp_right (hgo e)

theorem Answered.step (h : Answered s) (hs : Served s) (hk : Kept s) (he : Effect s s') : Answered s' := by
  have hgo : ∀ e, Excused s e → Excused s' e := fun e hexcused => hexcused.step hs hk he
  cases he with
  | same => exact h
  | tick elapsed => exact h.carry hs hk (.tick elapsed) rfl rfl (Nat.le_add_right _ _) ⟨rfl, rfl⟩ id rfl rfl
  | recv hidle hqueue =>
    exact h.carry hs hk (.recv hidle hqueue) rfl rfl (Nat.le_refl _) ⟨rfl, rfl⟩ (by simp [hidle]) rfl rfl
  | handle hreceived hintime =>
    exact h.carry hs hk (.handle hreceived hintime) rfl rfl (Nat.le_refl _) ⟨rfl, rfl⟩
      (by simp [hreceived]) rfl rfl
  | call req timeout hcall =>
    apply h.setCall
    constructor <;> simp
  | @gone id timeout e hcall hdied =>
    have hnew : e ∉ s.accepted := by
      intro hmem
      apply hk.not_accepted id (by simp [hcall, Call.submitted])
      exact List.mem_map.mpr ⟨e, hmem, hk.made id e timeout hcall⟩
    have hset : Answered (s.setCall id (.returned e none)) := by
      apply h.setCall
      constructor <;> simp
      exact .inl hnew
    refine ⟨?_, fun _ => hdied, hset.answered, hset.dropped, hset.made, hset.sent, hset.waiting,
      hset.returned, hset.empty⟩
    have hwarned := h.warned
    by_cases hd : s.workerDied = true
    · simpa [hd] using hwarned
    · simp [hd] at hwarned
      simp [hd, hwarned]
  | @shed id timeout e hcall hfull =>
    have hnew : e ∉ s.accepted := by
      intro hmem
      apply hk.not_accepted id (by simp [hcall, Call.submitted])
      exact List.mem_map.mpr ⟨e, hmem, hk.made id e timeout hcall⟩
    apply h.setCall
    constructor <;> simp
    exact .inl hnew
  | @accept id timeout e hcall halive hroom =>
    have hset : Answered (s.setCall id (.sent e timeout)) := by
      apply h.setCall
      constructor <;> simp
      exact h.made id e timeout hcall
    refine ⟨hset.warned, hset.died, hset.answered, ?_, hset.made, hset.sent, hset.waiting,
      hset.returned, ?_⟩
    · intro i hreply
      obtain ⟨x, hx, hid, hexcused⟩ := h.dropped i hreply
      exact ⟨x, List.mem_append_left _ hx, hid, hgo x hexcused⟩
    · intro i x hx
      have hne : i ≠ id := by
        intro heq
        simp [State.setCall, heq] at hx
      have hcallx : s.calls i = .returned x none := by simpa [State.setCall, hne] using hx
      refine (h.empty i x hcallx).imp ?_ (hgo x)
      intro hnot
      rw [List.mem_append, List.mem_singleton, not_or]
      refine ⟨hnot, ?_⟩
      intro heq
      apply hne
      rw [← hk.submitted i x (by simp [hcallx, Call.submitted]), heq, hk.made id e timeout hcall]
  | @wait id timeout e hcall =>
    apply h.setCall
    constructor <;> simp
    exact h.sent id e timeout hcall
  | @receive id expires e resp hcall hreply =>
    obtain ⟨x, hid, hanswer⟩ := h.answered id resp hreply
    have hx : x = e := hk.eq_of_submitted (by simp [hcall, Call.submitted]) (hs.answer_accepted hanswer) hid
    apply h.setCall
    constructor <;> simp
    rwa [← hx]
  | @hangUp id expires e hcall hreply =>
    obtain ⟨x, hmem, hid, hexcused⟩ := h.dropped id hreply
    have hx : x = e := hk.eq_of_submitted (by simp [hcall, Call.submitted]) hmem hid
    apply h.setCall
    constructor <;> simp
    right
    rwa [← hx]
  | @expire id expires e hcall hlate =>
    apply h.setCall
    constructor <;> simp
    exact .inr (.inl (Nat.le_trans (h.waiting id e expires hcall) hlate))
  | @skip e hreceived hlate =>
    apply h.drop [e] rfl (by simp [hreceived]) hgo
    intro x hx
    rw [List.mem_singleton.mp hx]
    exact ⟨hs.taken_mem (by simp [hreceived, Worker.hand]), .inl hlate⟩
  | @answer e resp hhandling =>
    refine ⟨h.warned, fun hd => by simpa [hhandling] using h.died hd, ?_, ?_, h.made, h.sent, h.waiting, ?_, ?_⟩
    · intro id resp' hreply
      by_cases hid : id = e.reply
      · have : resp = resp' := by simpa [hid] using hreply
        exact ⟨e, hid.symm, by simp [this]⟩
      · obtain ⟨x, hx, hmem⟩ := h.answered id resp' (by simpa [hid] using hreply)
        exact ⟨x, hx, List.mem_append_left _ hmem⟩
    · intro id hreply
      by_cases hid : id = e.reply
      · simp [hid] at hreply
      · obtain ⟨x, hx, hreplyx, hexcused⟩ := h.dropped id (by simpa [hid] using hreply)
        exact ⟨x, hx, hreplyx, hgo x hexcused⟩
    · exact fun id x r hcall => List.mem_append_left _ (h.returned id x r hcall)
    · exact fun id x hcall => (h.empty id x hcall).imp_right (hgo x)
  | @barren e hhandling =>
    apply h.drop [e] rfl (by simp [hhandling]) hgo
    intro x hx
    rw [List.mem_singleton.mp hx]
    have hhandled : e ∈ handledEntries s.fates := hs.busy_handled (by simp [hhandling, Worker.busy])
    refine ⟨hs.taken_mem (by simp [mem_fates_of_handled hhandled]), .inr (.inr ⟨hhandled, by simp [Worker.busy], ?_⟩)⟩
    obtain ⟨settled, hsettled, hanswers⟩ := hs.once
    have hnodup : (handledEntries s.fates).Nodup := by
      have := hk.nodup_taken hs
      rw [List.append_assoc, List.nodup_append] at this
      exact this.1.sublist (List.filter_sublist.map Prod.fst)
    rw [hsettled, hhandling, List.nodup_append] at hnodup
    intro hmem
    exact hnodup.2.2 e (hanswers.subset hmem) e (by simp [Worker.busy]) rfl
  | @panic e hhandling =>
    apply h.drop (e :: s.queue) rfl (by simp [hhandling]) hgo
    intro x hx
    refine ⟨?_, .inr (.inl rfl)⟩
    rcases List.mem_cons.mp hx with rfl | hx
    · have hhandled := hs.busy_handled (e := x) (by simp [hhandling, Worker.busy])
      exact hs.taken_mem (by simp [mem_fates_of_handled hhandled])
    · exact hs.taken_mem (by simp [hx])

/-! ### Runs -/

/-- What holds whenever the threads are looked at. -/
structure Safe (s : State Req Resp) : Prop where
  bounded : s.queue.length + s.worker.hand.length + s.worker.busy.length ≤ HOOK_QUEUE_DEPTH + 1
  inOrder : s.fates.map Prod.fst ++ s.worker.hand ++ s.queue <+: s.accepted
  nodup : (s.accepted.map Entry.reply).Nodup
  unlost : s.worker ≠ .died → s.fates.map Prod.fst ++ s.worker.hand ++ s.queue = s.accepted
  timely : ∀ p ∈ s.fates, p.2.Timely p.1
  own : ∀ id e resp, s.calls id = .returned e (some resp) →
    e.reply = id ∧ e ∈ handledEntries s.fates ∧ ∀ resp', (e, resp') ∈ s.answers ↔ resp' = resp
  empty : ∀ id e, s.calls id = .returned e none → e ∉ s.accepted ∨ Excused s e
  warned : s.warnings ≤ 1

theorem nodup_answers (hs : Served s) (hk : Kept s) : (s.answers.map Prod.fst).Nodup := by
  obtain ⟨settled, hsettled, hanswers⟩ := hs.once
  have hnodup := hk.nodup_taken hs
  rw [List.append_assoc, List.nodup_append] at hnodup
  have hhandled : (handledEntries s.fates).Nodup :=
    hnodup.1.sublist (List.filter_sublist.map Prod.fst)
  rw [hsettled] at hhandled
  exact (hhandled.sublist (List.sublist_append_left _ _)).sublist hanswers

theorem safe_of_inv (hs : Served s) (hk : Kept s) (h : Answered s) : Safe s := by
  refine ⟨?_, hs.order, hk.nodup, hs.whole, hs.timely, ?_, h.empty, ?_⟩
  · have hdepth := hs.depth
    cases s.worker <;> simp only [Worker.hand, Worker.busy, List.length_nil, List.length_singleton] <;> omega
  · intro id e resp hcall
    have hanswer := h.returned id e resp hcall
    obtain ⟨settled, hsettled, hanswers⟩ := hs.once
    refine ⟨hk.submitted id e (by simp [hcall, Call.submitted]), ?_, ?_⟩
    · rw [hsettled]
      exact List.mem_append_left _ (hanswers.subset (List.mem_map_of_mem hanswer))
    · intro resp'
      constructor
      · intro hanswer'
        have heq : (e, resp') = (e, resp) :=
          List.inj_on_of_nodup_map (nodup_answers hs hk) hanswer' hanswer rfl
        exact (Prod.mk.inj heq).2
      · intro heq
        rwa [heq]
  · rw [h.warned]
    split_ifs <;> simp

/-- In every interleaving of callers, worker and clock the work pending is bounded, the requests
are taken in the order they came, each once and in time, and a call returns the answer to its own
request, or nothing for a reason. -/
theorem calls_safe (as : List (Action Req Resp)) : Runs.Always State.step Safe State.start as := by
  have hinv : Runs.Always State.step (fun s : State Req Resp => Served s ∧ Kept s ∧ Answered s)
      State.start as := by
    apply Runs.always_of_step
    · intro s a h
      obtain ⟨hs, hk, ha⟩ := h
      have he := effect s a
      exact ⟨hs.step he, hk.step he, ha.step hs hk he⟩
    · exact ⟨Served.start, Kept.start, Answered.start⟩
  exact Runs.Always.mono (fun s h => safe_of_inv h.1 h.2.1 h.2.2) hinv

end Travsr.PluginHost.HookWorker
