import NimbleRs.EventQueueInvariant
import NimbleRs.TimerInvariant
import NimbleRs.TransitionSystem
import Mathlib.Tactic

/-!
# The servicing loop of `run`

`run` polls `run_events`, then `run_timers`, then the pump, one critical section or
one use of the embassy timer at a time, while other contexts put and remove events
and reset and stop callouts. A producer wakes the waker that it took only after its
section, so that wakers can be on their way. An embassy `Timer` that was polled once
and dropped is an alarm that wakes the task at its deadline or later. What an event
or an inline handler calls comes as steps of its own.
-/
namespace NimbleRs.Npl
open PointerChain TransitionSystem

/-- What `run` does next. -/
inductive RunPhase (Co : Type*)
  | suspended
  /-- `eventq_poll`, its look at the head. -/
  | events
  /-- `eventq_poll`, its pop. -/
  | eventsPop
  /-- `timers_poll_next_deadline`. -/
  | timers
  /-- The comparison of the deadline with the clock. -/
  | timersGot (deadline : Instant)
  /-- The poll of `Timer::at(deadline)`. -/
  | timersArm (deadline : Instant)
  /-- `timers_fire_due`, its look at the list. -/
  | fire
  /-- `timers_fire_due`, with a callout taken. -/
  | firePut (co : Co)
  | pump

structure RunLoop (Co Ev Evq Wk : Type*) where
  npl : State Co Ev Evq Wk
  now : Instant
  phase : RunPhase Co
  /-- The task of `run` has been woken since its last poll began. -/
  woken : Bool
  /-- The wakers that producers have taken and not yet woken. -/
  delivering : List Wk
  /-- The deadlines of the timers that will wake the task of `run`. -/
  alarms : List Instant

inductive RunStep (Co Ev Evq Wk : Type*)
  /-- The next section of `run`; the flag is what a poll of the timer says. -/
  | turn (timerReady : Bool)
  | put (q : Evq) (ev : Co ⊕ Ev)
  | remove (q : Evq) (ev : Co ⊕ Ev)
  | reset (co : Co) (ticks : ℕ) (read : Instant)
  | stopDisarm (co : Co)
  | stopCancel (co : Co)
  | deliver (waker : Wk)
  | alarm (deadline : Instant)
  | wake
  | advance (ms : ℕ)

variable {Co Ev Evq Wk : Type*} [DecidableEq Co] [DecidableEq Ev] [DecidableEq Evq]
  [DecidableEq Wk] [Fintype Co] [Fintype Ev]

def runTurn (dflt : Evq) (waker : Wk) (s : RunLoop Co Ev Evq Wk) (timerReady : Bool) :
    Option (RunLoop Co Ev Evq Wk) :=
  match s.phase with
  | .suspended => some { s with phase := .events, woken := false }
  | .events =>
    let r := eventqPollHead s.npl.mem dflt waker
    some { s with
      npl := { s.npl with mem := r.1 }, phase := if r.2 then .timers else .eventsPop }
  | .eventsPop =>
    some { s with npl := { s.npl with mem := (eventqTryPop s.npl.mem dflt).1 }, phase := .events }
  | .timers =>
    let r := timersPollNextDeadline s.npl waker
    some { s with npl := r.1, phase := r.2.elim .pump .timersGot }
  | .timersGot d => some { s with phase := if d ≤ s.now then .fire else .timersArm d }
  | .timersArm d =>
    if timerReady then if d ≤ s.now then some { s with phase := .fire } else none
    else some { s with phase := .pump, alarms := d :: s.alarms }
  | .fire =>
    let r := timersTakeDue s.npl s.now
    some { s with npl := r.1, phase := r.2.elim .timers .firePut }
  | .firePut co =>
    let r := calloutExpire (fun _ _ n => n) s.npl co
    some { s with npl := r.1, phase := .fire, delivering := r.2.toList ++ s.delivering }
  | .pump => some { s with phase := .suspended }

def runStep (dflt : Evq) (waker : Wk) (s : RunLoop Co Ev Evq Wk) :
    RunStep Co Ev Evq Wk → Option (RunLoop Co Ev Evq Wk)
  | .turn timerReady => runTurn dflt waker s timerReady
  | .put q ev =>
    let r := bleNplEventqPut s.npl.mem q ev
    some { s with npl := { s.npl with mem := r.1 }, delivering := r.2.toList ++ s.delivering }
  | .remove q ev => (bleNplEventqRemove s.npl.mem q ev).map fun m =>
    { s with npl := { s.npl with mem := m } }
  | .reset co ticks read =>
    if read ≤ s.now then (bleNplCalloutReset s.npl co ticks read).map fun r =>
      { s with npl := r.1, delivering := r.2.toList ++ s.delivering }
    else none
  | .stopDisarm co => (calloutDisarm s.npl co).map fun n => { s with npl := n }
  | .stopCancel co => (calloutCancel s.npl co).map fun n => { s with npl := n }
  | .deliver w =>
    if w ∈ s.delivering then some { s with
      delivering := s.delivering.erase w, woken := s.woken || decide (w = waker) }
    else none
  | .alarm d =>
    if d ∈ s.alarms ∧ d ≤ s.now then some { s with alarms := s.alarms.erase d, woken := true }
    else none
  | .wake => some { s with woken := true }
  | .advance ms => some { s with now := s.now + ms }

/-- The task of `run` has just been spawned. -/
def RunLoop.start (n : State Co Ev Evq Wk) (now : Instant) : RunLoop Co Ev Evq Wk :=
  ⟨n, now, .suspended, true, [], []⟩

/-- A wake-up of the task of `run` is delivered or being delivered. -/
def RunLoop.Waking (waker : Wk) (s : RunLoop Co Ev Evq Wk) : Prop :=
  s.woken = true ∨ waker ∈ s.delivering

/-- While `run` is suspended with no wake-up on its way, the default queue is empty and
an alarm is set no later than the deadline of any armed callout. -/
def SleepsSafely (dflt : Evq) (waker : Wk) (s : RunLoop Co Ev Evq Wk) : Prop :=
  s.phase = .suspended → ¬ s.Waking waker →
    bleNplEventqIsEmpty s.npl.mem dflt = true ∧
      ∀ co, (s.npl.callout co).active = true → ∃ d ∈ s.alarms, d ≤ (s.npl.callout co).deadline

/-- `run` has left its events behind until the next poll. -/
def RunPhase.afterEvents : RunPhase Co → Bool
  | .events | .eventsPop => false
  | _ => true

/-- When `run` relies on having seen the armed deadlines, and what it does for the
armed deadline `e`. -/
def RunLoop.Covers (s : RunLoop Co Ev Evq Wk) (e : Instant) : Prop :=
  match s.phase with
  | .timersGot d | .timersArm d => d ≤ e
  | _ => ∃ d ∈ s.alarms, d ≤ e

def RunPhase.afterTimers : RunPhase Co → Bool
  | .timersGot _ | .timersArm _ | .pump | .suspended => true
  | _ => false

/-- Every in-between state of producers and consumer: what `run` has looked at and
left is as it left it, with its waker registered, or a wake-up is on its way. -/
structure Watchful (dflt : Evq) (waker : Wk) (s : RunLoop Co Ev Evq Wk) : Prop where
  timers : ∃ l t, TimersRepresent s.npl l t
  eventqs : ∃ f, Represents s.npl.mem f
  events : s.phase.afterEvents = true → s.Waking waker ∨
    ((s.npl.mem.eventq dflt).waker = some waker ∧ (s.npl.mem.eventq dflt).head = none)
  deadlines : s.phase.afterTimers = true → s.Waking waker ∨
    (s.npl.timers.waker = some waker ∧
      ∀ co, (s.npl.callout co).active = true → s.Covers (s.npl.callout co).deadline)

namespace Watchful

variable {dflt : Evq} {waker : Wk} {s s' : RunLoop Co Ev Evq Wk}

omit [DecidableEq Co] [DecidableEq Ev] [DecidableEq Evq] [DecidableEq Wk]
  [Fintype Co] [Fintype Ev] in
/-- A task that is being woken has nothing to rely on. -/
theorem of_waking (htimers : ∃ l t, TimersRepresent s.npl l t)
    (heventqs : ∃ f, Represents s.npl.mem f) (hw : s.Waking waker) : Watchful dflt waker s :=
  ⟨htimers, heventqs, fun _ => .inl hw, fun _ => .inl hw⟩

omit [DecidableEq Co] [DecidableEq Ev] [DecidableEq Evq] [DecidableEq Wk]
  [Fintype Co] [Fintype Ev] in
/-- A section of some context that takes `taken`, the waker of the default queue if it
changes that queue, and the waker of the timer list if it arms a callout. -/
theorem others (h : Watchful dflt waker s) {n : State Co Ev Evq Wk} (taken : Option Wk)
    (htimers : ∃ l t, TimersRepresent n l t) (heventqs : ∃ f, Represents n.mem f)
    (hevents : taken = (s.npl.mem.eventq dflt).waker ∨
      ((n.mem.eventq dflt).waker = (s.npl.mem.eventq dflt).waker ∧
        ((s.npl.mem.eventq dflt).head = none → (n.mem.eventq dflt).head = none)))
    (hdeadlines : taken = s.npl.timers.waker ∨
      (n.timers.waker = s.npl.timers.waker ∧ ∀ co, (n.callout co).active = true →
        (s.npl.callout co).active = true ∧
          (n.callout co).deadline = (s.npl.callout co).deadline)) :
    Watchful dflt waker { s with npl := n, delivering := taken.toList ++ s.delivering } := by
  have hmono : s.Waking waker →
      RunLoop.Waking waker { s with npl := n, delivering := taken.toList ++ s.delivering } :=
    fun hw => hw.imp_right (fun hmem => List.mem_append_right _ hmem)
  have htaken : taken = some waker →
      RunLoop.Waking waker { s with npl := n, delivering := taken.toList ++ s.delivering } := by
    intro heq
    right
    simp [heq]
  refine ⟨htimers, heventqs, fun hp => ?_, fun hp => ?_⟩
  · obtain hw | ⟨hwaker, hhead⟩ := h.events hp
    · exact .inl (hmono hw)
    · obtain heq | ⟨hsame, hempty⟩ := hevents
      · exact .inl (htaken (heq.trans hwaker))
      · exact .inr ⟨hsame.trans hwaker, hempty hhead⟩
  · obtain hw | ⟨hwaker, hcovers⟩ := h.deadlines hp
    · exact .inl (hmono hw)
    · obtain heq | ⟨hsame, harmed⟩ := hdeadlines
      · exact .inl (htaken (heq.trans hwaker))
      · refine .inr ⟨hsame.trans hwaker, fun co hco => ?_⟩
        obtain ⟨hold, hd⟩ := harmed co hco
        have := hcovers co hold
        rw [← hd] at this
        exact this

omit [DecidableEq Wk] [Fintype Co] [Fintype Ev] in
theorem put (h : Watchful dflt waker s) (q : Evq) (ev : Co ⊕ Ev) :
    Watchful dflt waker { s with
      npl := { s.npl with mem := (bleNplEventqPut s.npl.mem q ev).1 }
      delivering := (bleNplEventqPut s.npl.mem q ev).2.toList ++ s.delivering } := by
  obtain ⟨l, t, hl⟩ := h.timers
  obtain ⟨f, hf⟩ := h.eventqs
  refine h.others _ ⟨l, t, hl.withMem _⟩ ⟨_, hf.put q ev⟩ ?_ (.inr ⟨rfl, fun co hco => ⟨hco, rfl⟩⟩)
  obtain hsame | htaken := bleNplEventqPut_waker s.npl.mem q dflt ev
  · right
    rw [hsame]
    exact ⟨rfl, id⟩
  · exact .inl htaken

omit [DecidableEq Wk] in
theorem remove (h : Watchful dflt waker s) {q : Evq} {ev : Co ⊕ Ev} {m : Mem (Co ⊕ Ev) Evq Wk}
    (hm : bleNplEventqRemove s.npl.mem q ev = some m) :
    Watchful dflt waker { s with npl := { s.npl with mem := m } } := by
  obtain ⟨l, t, hl⟩ := h.timers
  obtain ⟨f, hf⟩ := h.eventqs
  obtain ⟨m', hm', hf'⟩ := hf.remove q ev
  obtain rfl : m = m' := Option.some.inj (hm.symm.trans hm')
  refine h.others none ⟨l, t, hl.withMem m⟩ ⟨_, hf'⟩ (.inr ⟨?_, ?_⟩)
    (.inr ⟨rfl, fun co hco => ⟨hco, rfl⟩⟩)
  · exact (bleNplEventqRemove_slots hm dflt).2
  · exact hf.head_none_of_sub hf' (fun e he => Fifos.mem_remove he)

omit [DecidableEq Ev] [DecidableEq Evq] [DecidableEq Wk] [Fintype Ev] in
theorem reset (h : Watchful dflt waker s) {co : Co} {ticks : ℕ} {read : Instant}
    {r : State Co Ev Evq Wk × Option Wk} (hr : bleNplCalloutReset s.npl co ticks read = some r) :
    Watchful dflt waker { s with npl := r.1, delivering := r.2.toList ++ s.delivering } := by
  obtain ⟨l, t, hl⟩ := h.timers
  obtain ⟨f, hf⟩ := h.eventqs
  obtain ⟨n, l', hn, hl', hframe, -⟩ := hl.reset co ticks read
  obtain rfl : (n, s.npl.timers.waker) = r := Option.some.inj (hn.symm.trans hr)
  have hmem : n.mem = s.npl.mem := hframe.mem
  refine h.others _ ⟨l', _, hl'⟩ ⟨f, hmem ▸ hf⟩ (.inr ?_) (.inl rfl)
  rw [hmem]
  exact ⟨rfl, id⟩

omit [DecidableEq Ev] [DecidableEq Evq] [DecidableEq Wk] [Fintype Ev] in
theorem disarm (h : Watchful dflt waker s) {co : Co} {n : State Co Ev Evq Wk}
    (hn : calloutDisarm s.npl co = some n) : Watchful dflt waker { s with npl := n } := by
  obtain ⟨l, t, hl⟩ := h.timers
  obtain ⟨f, hf⟩ := h.eventqs
  obtain ⟨n', hn', hl', hframe, hwaker⟩ := hl.disarm co
  obtain rfl : n' = n := Option.some.inj (hn'.symm.trans hn)
  refine h.others none ⟨_, _, hl'⟩ ⟨f, hframe.mem ▸ hf⟩ (.inr ?_) (.inr ⟨hwaker, fun c hc => ?_⟩)
  · rw [hframe.mem]
    exact ⟨rfl, id⟩
  · rw [hl'.active c, TimerQueue.stop_armed] at hc
    by_cases hcc : c = co
    · simp [hcc] at hc
    · rw [if_neg hcc] at hc
      obtain ⟨x, hx⟩ := Option.isSome_iff_exists.mp hc
      have hx' : (t.stop co).armed c = some x := by rw [TimerQueue.stop_armed, if_neg hcc, hx]
      exact ⟨by rw [hl.active c, hc], by rw [hl'.deadline c x hx', hl.deadline c x hx]⟩

omit [DecidableEq Wk] in
theorem cancel (h : Watchful dflt waker s) {co : Co} {n : State Co Ev Evq Wk}
    (hn : calloutCancel s.npl co = some n) : Watchful dflt waker { s with npl := n } := by
  unfold calloutCancel at hn
  cases hq : (s.npl.callout co).evq with
  | none =>
    simp only [hq, Option.some.injEq] at hn
    exact hn ▸ h
  | some q =>
    simp only [hq, Option.map_eq_some_iff] at hn
    obtain ⟨m, hm, rfl⟩ := hn
    exact h.remove hm

omit [DecidableEq Co] [DecidableEq Ev] [DecidableEq Evq] [Fintype Co] [Fintype Ev] in
theorem deliver (h : Watchful dflt waker s) (w : Wk) :
    Watchful dflt waker { s with
      delivering := s.delivering.erase w, woken := s.woken || decide (w = waker) } := by
  have hmono : s.Waking waker → RunLoop.Waking waker { s with
      delivering := s.delivering.erase w, woken := s.woken || decide (w = waker) } := by
    rintro (hw | hmem)
    · left
      simp [hw]
    · by_cases hww : w = waker
      · left
        simp [hww]
      · right
        exact (List.mem_erase_of_ne (Ne.symm hww)).mpr hmem
  exact ⟨h.timers, h.eventqs, fun hp => (h.events hp).imp_left hmono,
    fun hp => (h.deadlines hp).imp_left hmono⟩

omit [DecidableEq Co] [DecidableEq Ev] [DecidableEq Wk] [Fintype Co] [Fintype Ev] in
/-- An empty queue is left with the waker registered in the same section. -/
theorem pollHead (h : Watchful dflt waker s) :
    Watchful dflt waker { s with
      npl := { s.npl with mem := (eventqPollHead s.npl.mem dflt waker).1 }
      phase := if (eventqPollHead s.npl.mem dflt waker).2 then .timers else .eventsPop } := by
  obtain ⟨l, t, hl⟩ := h.timers
  obtain ⟨f, hf⟩ := h.eventqs
  by_cases hhead : (s.npl.mem.eventq dflt).head.isNone = true
  · have hpoll : eventqPollHead s.npl.mem dflt waker =
        (registerWaker s.npl.mem dflt waker, true) := by simp [eventqPollHead, hhead]
    simp only [hpoll, if_true]
    refine ⟨⟨l, t, hl.withMem _⟩, ⟨f, hf.waker dflt (some waker)⟩, fun _ => .inr ?_, nofun⟩
    simpa [registerWaker] using hhead
  · have hpoll : eventqPollHead s.npl.mem dflt waker = (s.npl.mem, false) := by
      simp [eventqPollHead, hhead]
    simp only [hpoll, Bool.false_eq_true, if_false]
    exact ⟨⟨l, t, hl⟩, ⟨f, hf⟩, nofun, nofun⟩

omit [DecidableEq Co] [DecidableEq Ev] [DecidableEq Evq] [DecidableEq Wk]
  [Fintype Co] [Fintype Ev] in
/-- The first deadline of the list covers all that are armed. -/
theorem pollNextDeadline (h : Watchful dflt waker s) (hphase : s.phase = .timers) :
    Watchful dflt waker { s with
      npl := (timersPollNextDeadline s.npl waker).1
      phase := (timersPollNextDeadline s.npl waker).2.elim .pump .timersGot } := by
  obtain ⟨l, t, hl⟩ := h.timers
  have hevents := h.events (by rw [hphase]; rfl)
  refine ⟨⟨l, t, hl.waker (some waker)⟩, h.eventqs, fun _ => hevents, fun _ => .inr ⟨rfl, ?_⟩⟩
  intro co hco
  have hmem : co ∈ l := (hl.members co).mpr (by rw [← hl.active co]; exact hco)
  cases l with
  | nil => simp at hmem
  | cons c l =>
    have hhead : s.npl.timers.head = some c := visits_head hl.chain
    have hle : (s.npl.callout c).deadline ≤ (s.npl.callout co).deadline := by
      obtain rfl | hmem := List.mem_cons.mp hmem
      · exact le_rfl
      · exact (List.pairwise_cons.mp hl.deadlines).1 co hmem
    simpa [timersPollNextDeadline, hhead, RunLoop.Covers] using hle

omit [DecidableEq Ev] [DecidableEq Evq] [DecidableEq Wk] [Fintype Co] [Fintype Ev] in
theorem takeDue (h : Watchful dflt waker s) (hphase : s.phase = .fire) :
    Watchful dflt waker { s with
      npl := (timersTakeDue s.npl s.now).1
      phase := (timersTakeDue s.npl s.now).2.elim .timers .firePut } := by
  obtain ⟨l, t, hl⟩ := h.timers
  obtain ⟨f, hf⟩ := h.eventqs
  have hevents := h.events (by rw [hphase]; rfl)
  obtain ⟨htake, -⟩ | ⟨co, -, l, n, -, -, -, hn, hl', hframe, -⟩ := hl.takeDue_cases s.now
  · rw [htake]
    exact ⟨⟨l, t, hl⟩, ⟨f, hf⟩, fun _ => hevents, nofun⟩
  · rw [hn]
    refine ⟨⟨l, _, hl'⟩, ⟨f, hframe.mem ▸ hf⟩, fun _ => ?_, nofun⟩
    show s.Waking waker ∨ ((n.mem.eventq dflt).waker = some waker ∧
      (n.mem.eventq dflt).head = none)
    rw [hframe.mem]
    exact hevents

omit [DecidableEq Wk] [Fintype Co] [Fintype Ev] in
/-- An expiry with a queue is a put; without one its handler calls on its own. -/
theorem expire (h : Watchful dflt waker s) (co : Co) :
    Watchful dflt waker { s with
      npl := (calloutExpire (fun _ _ n => n) s.npl co).1
      delivering := (calloutExpire (fun _ _ n => n) s.npl co).2.toList ++ s.delivering } := by
  cases hq : (s.npl.callout co).evq with
  | none =>
    have hnone : calloutExpire (fun _ _ n => n) s.npl co = (s.npl, none) := by
      simp [calloutExpire, hq]
    rw [hnone]
    exact h
  | some q =>
    have hsome : calloutExpire (fun _ _ n => n) s.npl co =
        ({ s.npl with mem := (bleNplEventqPut s.npl.mem q (eventOf co)).1 },
          (bleNplEventqPut s.npl.mem q (eventOf co)).2) := by
      simp [calloutExpire, hq]
    rw [hsome]
    exact h.put q (eventOf co)

omit [DecidableEq Wk] [Fintype Co] [Fintype Ev] in
/-- One section of `run`. A phase that looks registers the waker in the same section,
and a phase that goes back starts the look anew. -/
theorem turn (h : Watchful dflt waker s) {ready : Bool}
    (hstep : runTurn dflt waker s ready = some s') : Watchful dflt waker s' := by
  unfold runTurn at hstep
  cases hphase : s.phase with
  | suspended =>
    simp only [hphase, Option.some.injEq] at hstep
    subst hstep
    exact ⟨h.timers, h.eventqs, nofun, nofun⟩
  | events =>
    simp only [hphase, Option.some.injEq] at hstep
    exact hstep ▸ h.pollHead
  | eventsPop =>
    simp only [hphase, Option.some.injEq] at hstep
    subst hstep
    obtain ⟨l, t, hl⟩ := h.timers
    obtain ⟨f, hf⟩ := h.eventqs
    exact ⟨⟨l, t, hl.withMem _⟩, ⟨_, (hf.tryPop dflt).1⟩, nofun, nofun⟩
  | timers =>
    simp only [hphase, Option.some.injEq] at hstep
    exact hstep ▸ h.pollNextDeadline hphase
  | timersGot d =>
    simp only [hphase, Option.some.injEq] at hstep
    subst hstep
    have hevents := h.events (by rw [hphase]; rfl)
    by_cases hd : d ≤ s.now
    · simp only [hd, if_true]
      exact ⟨h.timers, h.eventqs, fun _ => hevents, nofun⟩
    · simp only [hd, if_false]
      have hdeadlines := h.deadlines (by rw [hphase]; rfl)
      simp only [RunLoop.Covers, hphase] at hdeadlines
      exact ⟨h.timers, h.eventqs, fun _ => hevents, fun _ => hdeadlines⟩
  | timersArm d =>
    have hevents := h.events (by rw [hphase]; rfl)
    have hdeadlines := h.deadlines (by rw [hphase]; rfl)
    simp only [RunLoop.Covers, hphase] at hdeadlines
    cases ready with
    | true =>
      by_cases hd : d ≤ s.now
      · simp only [hphase, hd, if_true, Option.some.injEq] at hstep
        subst hstep
        exact ⟨h.timers, h.eventqs, fun _ => hevents, nofun⟩
      · simp [hphase, hd] at hstep
    | false =>
      -- the alarm that is set takes over from the deadline that was read
      simp only [hphase, Bool.false_eq_true, if_false, Option.some.injEq] at hstep
      subst hstep
      refine ⟨h.timers, h.eventqs, fun _ => hevents, fun _ => hdeadlines.imp_right ?_⟩
      exact fun ⟨hwaker, hcovers⟩ => ⟨hwaker, fun co hco => ⟨d, by simp, hcovers co hco⟩⟩
  | fire =>
    simp only [hphase, Option.some.injEq] at hstep
    exact hstep ▸ h.takeDue hphase
  | firePut co =>
    simp only [hphase, Option.some.injEq] at hstep
    subst hstep
    have hput := h.expire co
    exact ⟨hput.timers, hput.eventqs, fun _ => hput.events (by simp [hphase, RunPhase.afterEvents]),
      nofun⟩
  | pump =>
    simp only [hphase, Option.some.injEq] at hstep
    subst hstep
    have hevents := h.events (by rw [hphase]; rfl)
    have hdeadlines := h.deadlines (by rw [hphase]; rfl)
    simp only [RunLoop.Covers, hphase] at hdeadlines
    exact ⟨h.timers, h.eventqs, fun _ => hevents, fun _ => hdeadlines⟩

theorem step (h : Watchful dflt waker s) (a : RunStep Co Ev Evq Wk)
    (hstep : runStep dflt waker s a = some s') : Watchful dflt waker s' := by
  cases a with
  | turn ready => exact h.turn hstep
  | put q ev =>
    cases hstep
    exact h.put q ev
  | remove q ev =>
    simp only [runStep, Option.map_eq_some_iff] at hstep
    obtain ⟨m, hm, rfl⟩ := hstep
    exact h.remove hm
  | reset co ticks read =>
    by_cases hread : read ≤ s.now
    · simp only [runStep, hread, if_true, Option.map_eq_some_iff] at hstep
      obtain ⟨r, hr, rfl⟩ := hstep
      exact h.reset hr
    · simp [runStep, hread] at hstep
  | stopDisarm co =>
    simp only [runStep, Option.map_eq_some_iff] at hstep
    obtain ⟨n, hn, rfl⟩ := hstep
    exact h.disarm hn
  | stopCancel co =>
    simp only [runStep, Option.map_eq_some_iff] at hstep
    obtain ⟨n, hn, rfl⟩ := hstep
    exact h.cancel hn
  | deliver w =>
    by_cases hw : w ∈ s.delivering
    · simp only [runStep, hw, if_true, Option.some.injEq] at hstep
      exact hstep ▸ h.deliver w
    · simp [runStep, hw] at hstep
  | alarm d =>
    by_cases hd : d ∈ s.alarms ∧ d ≤ s.now
    · simp only [runStep, hd, and_self, if_true, Option.some.injEq] at hstep
      subst hstep
      exact of_waking h.timers h.eventqs (.inl rfl)
    · simp [runStep, hd] at hstep
  | wake =>
    cases hstep
    exact of_waking h.timers h.eventqs (.inl rfl)
  | advance ms =>
    cases hstep
    exact ⟨h.timers, h.eventqs, h.events, h.deadlines⟩

omit [DecidableEq Co] [DecidableEq Ev] [DecidableEq Evq] [DecidableEq Wk]
  [Fintype Co] [Fintype Ev] in
theorem sleepsSafely (h : Watchful dflt waker s) : SleepsSafely dflt waker s := by
  intro hphase hw
  have hevents := (h.events (by rw [hphase]; rfl)).resolve_left hw
  have hdeadlines := (h.deadlines (by rw [hphase]; rfl)).resolve_left hw
  simp only [RunLoop.Covers, hphase] at hdeadlines
  exact ⟨by simp [bleNplEventqIsEmpty, hevents.2], hdeadlines.2⟩

end Watchful

/-- Whatever other contexts put, remove, arm and stop, in whatever order with the sections
of `run`: it never sleeps through an event on the default queue or an armed deadline. -/
theorem run_never_sleeps_through_work (dflt : Evq) (waker : Wk) {n : State Co Ev Evq Wk}
    {l : List Co} {t : TimerQueue Co} {f : Fifos (Co ⊕ Ev) Evq} (hl : TimersRepresent n l t)
    (hf : Represents n.mem f) (now : Instant) (steps : List (RunStep Co Ev Evq Wk)) :
    Always (runStep dflt waker) (SleepsSafely dflt waker) (RunLoop.start n now) steps := by
  have hstart : Watchful dflt waker (RunLoop.start n now) :=
    Watchful.of_waking ⟨l, t, hl⟩ ⟨f, hf⟩ (.inl rfl)
  exact always_of_step (fun _ a _ h hstep => h.step a hstep) (fun _ h => h.sleepsSafely) steps
    hstart

/-- A put while `run` is about to suspend, a callout armed earlier than the alarm that
is set, and the polls that see to both. -/
theorem run_never_sleeps_through_work_rearmed :
    let n : State (Fin 2) (Fin 1) (Fin 1) (Fin 1) := State.bound (bleNplEventqInit Mem.zeroed 0) 0
    Always (runStep 0 0) (SleepsSafely 0 0) (RunLoop.start n 0)
      ([RunStep.reset 0 50 0] ++ List.replicate 5 (RunStep.turn false) ++
        [RunStep.put 0 (.inr 0), .turn false, .deliver 0, .reset 1 20 0] ++
        List.replicate 8 (RunStep.turn false) ++ [RunStep.deliver 0, .advance 20, .alarm 20] ++
        List.replicate 11 (RunStep.turn false)) :=
  run_never_sleeps_through_work 0 0 (timersRepresent_empty rfl (fun _ => rfl))
    (represents_zeroed.eventqInit rfl) 0 _

end NimbleRs.Npl
