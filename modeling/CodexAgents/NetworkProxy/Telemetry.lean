import CodexAgents.Lib.Run
import CodexAgents.NetworkProxy.Runtime

/-!
# Which blocked requests are drained

Every blocked request should be drained once, in the order of recording, unless too many others are
recorded before that, and the count should be that of all recordings (`TelemetryExact`).  A task
that writes back what it has copied before loses this, if requests were recorded or drained in the
meantime (`reload_loses_record`), and so does `force_reload`, which starts to count anew.  Those are
the only ways to lose it, up to the largest count (`telemetry_exact_iff`).
-/

namespace NetworkProxy

open Text Run List

/-! ## What is to be drained -/

/-- A request has been recorded. -/
def Event.isRecorded : Event → Bool
  | .recorded _ => true
  | .drained _ => false

variable (log : List Event)

/-- What has been recorded since the last drain. -/
def sinceDrain : List BlockedRequest :=
  log.foldl (fun recorded event =>
    match event with
    | .recorded entry => recorded ++ [entry]
    | .drained _ => []) []

@[simp]
lemma sinceDrain_concat_recorded (entry : BlockedRequest) :
    sinceDrain (log ++ [.recorded entry]) = sinceDrain log ++ [entry] := by
  simp [sinceDrain]

@[simp]
lemma sinceDrain_concat_drained (entries : List BlockedRequest) :
    sinceDrain (log ++ [.drained entries]) = [] := by
  simp [sinceDrain]

section

variable {Hooks Compiled : Type}

/-- **Every recording is drained once, in order.**  A drain returns what was recorded since the
drain before it, less what `maxBlockedEvents` newer ones have pushed out. -/
structure TelemetryExact (s : System Hooks Compiled) : Prop where
  drained : ∀ before entries, before ++ [.drained entries] <+: s.log →
    entries = (sinceDrain before).rtake maxBlockedEvents
  /-- This is what the next drain returns. -/
  buffered : s.shared.blocked = (sinceDrain s.log).rtake maxBlockedEvents
  total : s.shared.blockedTotal = s.log.countP Event.isRecorded

/-! ## The buffer -/

lemma popWhileOver_eq {α : Type} (max : Nat) (l : List α) : popWhileOver max l = l.rtake max := by
  induction l with
  | nil => simp [popWhileOver]
  | cons x l ih =>
    rw [popWhileOver, rtake]
    split_ifs with hover
    · have hdrop : (x :: l).length - max = (l.length - max) + 1 := by
        rw [length_cons] at hover ⊢
        omega
      rw [ih, hdrop, drop_succ_cons, rtake]
    · rw [Nat.sub_eq_zero_of_le (not_lt.mp hover), drop_zero]

/-- What is cut off first does not matter. -/
lemma rtake_rtake_concat {α : Type} (n : Nat) (l : List α) (x : α) :
    (l.rtake n ++ [x]).rtake n = (l ++ [x]).rtake n := by
  obtain _ | n := n
  · rw [rtake_zero, rtake_zero]
  · rw [rtake_concat_succ, rtake_concat_succ]
    simp only [rtake_eq_reverse_take_reverse, reverse_reverse, take_take]
    rw [min_eq_left n.le_succ]

namespace TelemetryExact

variable {s s' : System Hooks Compiled}

/-! ## What one move does -/

/-- A state that is stored. -/
lemma stored_iff (h : TelemetryExact s) (hlog : s'.log = s.log) :
    TelemetryExact s' ↔ s'.shared.blocked = s.shared.blocked ∧
      s'.shared.blockedTotal = s.shared.blockedTotal := by
  constructor
  · intro h'
    exact ⟨by rw [h'.buffered, hlog, h.buffered], by rw [h'.total, hlog, h.total]⟩
  · rintro ⟨hblocked, htotal⟩
    refine ⟨hlog ▸ h.drained, ?_, ?_⟩
    · rw [hblocked, hlog, h.buffered]
    · rw [htotal, hlog, h.total]

lemma recorded_iff (h : TelemetryExact s) {entry : BlockedRequest}
    (hshared : s'.shared = s.shared.pushBlocked entry)
    (hlog : s'.log = s.log ++ [.recorded entry]) :
    TelemetryExact s' ↔ s.shared.blockedTotal < u64Max := by
  have hcount : s'.log.countP Event.isRecorded = s.shared.blockedTotal + 1 := by
    rw [hlog, countP_append, h.total]
    rfl
  have htotal : s'.shared.blockedTotal = min (s.shared.blockedTotal + 1) u64Max := by
    rw [hshared, ConfigState.pushBlocked]
  constructor
  · intro h'
    have hexact := h'.total
    rw [htotal, hcount] at hexact
    omega
  · intro hlt
    refine ⟨fun before entries hmade => ?_, ?_, ?_⟩
    · rw [hlog, prefix_concat_iff] at hmade
      obtain hmade | hmade := hmade
      · cases (append_inj' hmade rfl).2
      · exact h.drained before entries hmade
    · rw [hshared, ConfigState.pushBlocked, popWhileOver_eq, h.buffered, rtake_rtake_concat, hlog,
        sinceDrain_concat_recorded]
    · rw [htotal, hcount]
      exact min_eq_left hlt

lemma drain (h : TelemetryExact s) (hblocked : s'.shared.blocked = [])
    (htotal : s'.shared.blockedTotal = s.shared.blockedTotal)
    (hlog : s'.log = s.log ++ [.drained s.shared.blocked]) : TelemetryExact s' := by
  refine ⟨fun before entries hmade => ?_, ?_, ?_⟩
  · rw [hlog, prefix_concat_iff] at hmade
    obtain hmade | hmade := hmade
    · obtain ⟨rfl, hentries⟩ := append_inj' hmade rfl
      cases hentries
      exact h.buffered
    · exact h.drained before entries hmade
  · rw [hblocked, hlog, sinceDrain_concat_drained, rtake_nil]
  · rw [htotal, hlog, countP_append, h.total]
    rfl

end TelemetryExact

lemma telemetryExact_start (state : ConfigState Hooks Compiled) :
    TelemetryExact (System.start state) := by
  refine ⟨fun before entries hmade => ?_, ?_, rfl⟩
  · have hnil := prefix_nil.mp hmade
    simp at hnil
  · rw [System.start, sinceDrain, foldl_nil, rtake_nil]

/-! ## When a move keeps it -/

/-- The state that is about to be stored has the buffer and the count of the one that it
replaces. -/
def ConfigState.SameTelemetry (newState s : ConfigState Hooks Compiled) : Prop :=
  newState.blocked = s.blocked ∧ newState.blockedTotal = s.blockedTotal

/-- **What a task has copied is still what is there**, if it writes it back. -/
def Task.KeepsTelemetry (s : ConfigState Hooks Compiled) : Task Hooks Compiled → Prop
  | .reloadWrite newState _ => newState.SameTelemetry s
  | .updateWrite _ _ previousCfg constraints newState =>
    s.constraints = constraints → s.config = previousCfg → newState.SameTelemetry s
  | .forceWrite newState => newState.blockedTotal = s.blockedTotal
  | .reloaded (.recordBlocked _ _) => s.blockedTotal < u64Max
  | _ => True

/-- The move does not lose the total, if it is one of a task that holds the lock. -/
def Move.KeepsTelemetry (s : System Hooks Compiled) : Move Hooks Compiled → Prop
  | .lock i => ∀ task ∈ s.tasks[i]?, task.KeepsTelemetry s.shared
  | _ => True

variable [DecidableEq Hooks] (env : RuntimeEnv Hooks Compiled)

lemma exact_lock_iff {s s' : System Hooks Compiled}
    (h : TelemetryExact s) (task : Task Hooks Compiled)
    (hshared : s'.shared = (task.lock env s.shared).1)
    (hlog : s'.log = s.log ++ (task.lock env s.shared).2.2) :
    TelemetryExact s' ↔ task.KeepsTelemetry s.shared := by
  -- Most locks leave the buffer, the count and the log alone.
  have hsame : s'.log = s.log → s'.shared.blocked = s.shared.blocked →
      s'.shared.blockedTotal = s.shared.blockedTotal → (TelemetryExact s' ↔ True) :=
    fun hlog hblocked htotal => iff_true_intro ((h.stored_iff hlog).mpr ⟨hblocked, htotal⟩)
  have hread : s'.shared = s.shared → s'.log = s.log ++ [] → (TelemetryExact s' ↔ True) :=
    fun hs hl => hsame (hl.trans (append_nil _)) (hs ▸ rfl) (hs ▸ rfl)
  rcases task with op | ⟨newState, op⟩ | ⟨newState, op⟩ | op |
    ⟨host, target, previousCfg, constraints, newState⟩ | ⟨mode, constraints⟩ | _ | _ | newState |
    result
  · exact hread hshared hlog
  · exact hread hshared hlog
  · rw [h.stored_iff (hlog.trans (append_nil _)), hshared]
    rfl
  · obtain ⟨executionId, entry⟩ | _ | ⟨host, target⟩ | mode | newState | _ | _ := op
    · exact h.recorded_iff hshared hlog
    · refine iff_true_intro (h.drain ?_ ?_ hlog)
      · rw [hshared]
        rfl
      · rw [hshared]
        rfl
    · exact hread hshared hlog
    · rw [Task.lock] at hshared hlog
      split at hshared
      all_goals
        rename_i hcheck
        rw [hcheck] at hlog
        exact hread hshared hlog
    · refine hsame (hlog.trans (append_nil _)) ?_ ?_
      · rw [hshared]
        rfl
      · rw [hshared]
        rfl
    · exact hread hshared hlog
    · exact hread hshared hlog
  · rw [Task.lock] at hshared hlog
    by_cases hretry : s.shared.constraints ≠ constraints ∨ s.shared.config ≠ previousCfg
    · rw [if_pos hretry] at hshared hlog
      refine (hread hshared hlog).trans (iff_of_true trivial fun hconstraints hconfig => ?_)
      obtain hne | hne := hretry
      · exact absurd hconstraints hne
      · exact absurd hconfig hne
    · rw [if_neg hretry] at hshared hlog
      rw [h.stored_iff (hlog.trans (append_nil _)), hshared]
      obtain ⟨hconstraints, hconfig⟩ := not_or.mp hretry
      exact ⟨fun hkept _ _ => hkept, fun hkept =>
        hkept (not_not.mp hconstraints) (not_not.mp hconfig)⟩
  · rw [Task.lock] at hshared hlog
    split_ifs at hshared with hretry
    · rw [if_pos hretry] at hlog
      exact hread hshared hlog
    · rw [if_neg hretry] at hlog
      refine hsame (hlog.trans (append_nil _)) ?_ ?_
      · rw [hshared]
      · rw [hshared]
  · exact hread hshared hlog
  · exact hread hshared hlog
  · rw [h.stored_iff (hlog.trans (append_nil _)), hshared]
    exact and_iff_right rfl
  · exact hread hshared hlog

lemma exact_step_iff (s : System Hooks Compiled)
    (move : Move Hooks Compiled) (h : TelemetryExact s) :
    TelemetryExact (s.step env move) ↔ move.KeepsTelemetry s := by
  have hsame : ∀ s' : System Hooks Compiled, s'.shared = s.shared → s'.log = s.log →
      (TelemetryExact s' ↔ True) :=
    fun s' hs hl => iff_true_intro ((h.stored_iff hl).mpr ⟨hs ▸ rfl, hs ▸ rfl⟩)
  obtain op | ⟨i, answer⟩ | ⟨i, answer⟩ | i := move
  · exact hsame _ rfl rfl
  · rw [System.step]
    split <;> exact hsame _ rfl rfl
  · rw [System.step]
    split <;> exact hsame _ rfl rfl
  · rw [System.step]
    rcases htask : s.tasks[i]? with _ | task
    · refine (hsame s rfl rfl).trans (iff_of_true trivial fun task hmem => ?_)
      rw [htask] at hmem
      cases hmem
    · refine (exact_lock_iff env h task rfl rfl).trans ?_
      rw [Move.KeepsTelemetry, htask]
      simp

/-- **The telemetry of a run is exact all along** just in case every task that writes back what it
has copied finds it unchanged, every forced reload comes with the count that there is, and no
recording is made at the largest count. -/
theorem telemetry_exact_iff (state : ConfigState Hooks Compiled)
    (moves : List (Move Hooks Compiled)) :
    Always (System.step env) TelemetryExact (System.start state) moves ↔
      EachMove (System.step env) (fun s move => move.KeepsTelemetry s) (System.start state) moves :=
  always_iff (exact_step_iff env) (telemetryExact_start state) moves

end

/-! ## A recording that is lost -/

/-- An environment in which nothing is refused. -/
def plainEnv : RuntimeEnv Unit Unit where
  net := plainNet
  checks := plainChecks
  buildConfigState config constraints := .ok ⟨config, (), constraints, [], 0⟩

/-- The state in the beginning. -/
def plainState : ConfigState Unit Unit := ⟨{ mitmHooks := () }, (), {}, [], 0⟩

/-- A request that was denied. -/
def deniedRequest : BlockedRequest where
  host := "example.com"
  reason := "denied"
  client := none
  method := some "GET"
  mode := none
  protocol := "http"
  executionId := none
  decision := none
  source := none
  port := some 80
  timestamp := 0

/-- A request is recorded between the two locks of a reload. -/
def recordDuringReload : List (Move Unit Unit) :=
  [.spawn .reloadIfNeeded, .maybeReload 0 (.ok (some plainState)), .lock 0,
    .spawn (.recordBlocked none deniedRequest), .maybeReload 1 (.ok none), .lock 1, .lock 0]

/-- **The reload writes back what was there before the recording.** -/
theorem reload_loses_record :
    ¬ Always (System.step plainEnv) TelemetryExact
      (System.start plainState) recordDuringReload := by
  intro h
  have htotal := (h recordDuringReload prefix_rfl).total
  have hlost : (0 : Nat) = 1 := htotal
  exact absurd hlost (by decide)

end NetworkProxy
