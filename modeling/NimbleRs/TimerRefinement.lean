import NimbleRs.TimerInvariant
import NimbleRs.TransitionSystem
import Mathlib.Algebra.Order.BigOperators.Group.List
import Mathlib.Tactic

/-!
# Calls on the timer list

A machine whose labels are the calls of the callout functions, under a clock that
only goes forward, against a priority queue that serves by deadline and, among equal
deadlines, by the order of arming, and against FIFO lists of events. Its calls are
specified by a relation, since what `timers_fire_due` does depends on how often it comes
to read the clock.
-/
namespace NimbleRs.Npl
open PointerChain TransitionSystem

/-- The time after `readings` readings, each preceded by its gap. -/
def clockAfter (now : Instant) (gaps : List ℕ) (readings : ℕ) : Instant :=
  now + (gaps.take readings).sum

theorem clockAfter_monotone (now : Instant) (gaps : List ℕ) : Monotone (clockAfter now gaps) :=
  fun _ _ h => Nat.add_le_add_left (List.monotone_sum_take gaps h) now

inductive TimerCall (Co Evq Wk : Type*)
  | init (co : Co) (evq : Option Evq) (func : Option ℕ) (arg : ℕ)
  | reset (co : Co) (ticks : ℕ)
  | stop (co : Co)
  | isActive (co : Co)
  | pollNextDeadline (waker : Wk)
  | fireDue (gaps : List ℕ)
  | pop (q : Evq)
  | advance (ms : ℕ)

inductive TimerResult (Co Ev : Type*)
  | unit
  | active (b : Bool)
  | deadline (d : Option Instant)
  | fired (callouts : List Co)
  | popped (ev : Option (Co ⊕ Ev))

/-- All NPL state and the clock. -/
structure Timed (Co Ev Evq Wk : Type*) where
  npl : State Co Ev Evq Wk
  now : Instant

variable {Co Ev Evq Wk : Type*} [DecidableEq Co] [DecidableEq Ev] [DecidableEq Evq]
  [Fintype Co] [Fintype Ev]

def timerStep (handler : ℕ → Co ⊕ Ev → State Co Ev Evq Wk → State Co Ev Evq Wk)
    (s : Timed Co Ev Evq Wk) :
    TimerCall Co Evq Wk → Option (Timed Co Ev Evq Wk × TimerResult Co Ev)
  | .init co evq func arg =>
    some ({ s with npl := bleNplCalloutInit s.npl co evq func arg }, .unit)
  | .reset co ticks =>
    (bleNplCalloutReset s.npl co ticks s.now).map fun r => ({ s with npl := r.1 }, .unit)
  | .stop co => (bleNplCalloutStop s.npl co).map fun n => ({ s with npl := n }, .unit)
  | .isActive co => some (s, .active (bleNplCalloutIsActive s.npl co))
  | .pollNextDeadline waker =>
    let r := timersPollNextDeadline s.npl waker
    some ({ s with npl := r.1 }, .deadline r.2)
  | .fireDue gaps =>
    (timersFireDue handler (fun k => clockAfter s.now gaps (k + 1)) (Fintype.card Co + 1) 0
      s.npl).map fun r => (⟨r.1, clockAfter s.now gaps r.2.readings⟩, .fired r.2.callouts)
  | .pop q =>
    let r := eventqTryPop s.npl.mem q
    some ({ s with npl := { s.npl with mem := r.1 } }, .popped r.2)
  | .advance ms => some ({ s with now := s.now + ms }, .unit)

/-- The callout is bound to an initialized queue. -/
def State.Bound (n : State Co Ev Evq Wk) (co : Co) : Prop :=
  ((n.callout co).evq.any fun q => (n.mem.eventq q).initTag.isSome) = true

/-- What the C side promises: it initializes only callouts that are not armed, and arms
only callouts that are bound to an initialized queue. -/
def TimerPromise (s : Timed Co Ev Evq Wk) : TimerCall Co Evq Wk → Prop
  | .init co _ _ _ => (s.npl.callout co).active = false
  | .reset co _ => s.npl.Bound co
  | _ => True

/-- No callout is initialized whose event is queued: its cell is written over, and the link
and the flag of the event go with it. -/
def SparesQueued (s : Timed Co Ev Evq Wk) : TimerCall Co Evq Wk → Prop
  | .init co _ _ _ => bleNplEventIsQueued s.npl.mem (eventOf co) = false
  | _ => True

instance (s : Timed Co Ev Evq Wk) (a : TimerCall Co Evq Wk) : Decidable (TimerPromise s a) := by
  cases a <;> simp only [TimerPromise, State.Bound] <;> infer_instance

instance (s : Timed Co Ev Evq Wk) (a : TimerCall Co Evq Wk) : Decidable (SparesQueued s a) := by
  cases a <;> simp only [SparesQueued] <;> infer_instance

/-- The event of a callout goes to the back of its queue, unless it is queued. -/
noncomputable def putEvent (evq : Co → Option Evq) (f : Fifos (Co ⊕ Ev) Evq) (co : Co) :
    Fifos (Co ⊕ Ev) Evq :=
  match evq co with
  | none => f
  | some q => f.put q (eventOf co)

def removeEvent (evq : Co → Option Evq) (f : Fifos (Co ⊕ Ev) Evq) (co : Co) :
    Fifos (Co ⊕ Ev) Evq :=
  match evq co with
  | none => f
  | some q => f.remove q (eventOf co)

omit [DecidableEq Co] [DecidableEq Ev] [Fintype Co] [Fintype Ev] in
theorem foldl_putEvent_initialized (evq : Co → Option Evq) (l : List Co)
    (f : Fifos (Co ⊕ Ev) Evq) : (l.foldl (putEvent evq) f).initialized = f.initialized := by
  induction l generalizing f with
  | nil => rfl
  | cons a l ih =>
    rw [List.foldl_cons, ih]
    cases hq : evq a with
    | none => simp [putEvent, hq]
    | some q => simp [putEvent, hq]

omit [Fintype Co] [Fintype Ev] in
theorem removeEvent_initialized (evq : Co → Option Evq) (f : Fifos (Co ⊕ Ev) Evq) (co : Co) :
    (removeEvent evq f co).initialized = f.initialized := by
  unfold removeEvent
  cases evq co <;> rfl

namespace Represents

variable {m : Mem (Co ⊕ Ev) Evq Wk} {f : Fifos (Co ⊕ Ev) Evq}

omit [Fintype Co] [Fintype Ev] in
/-- The puts of `timers_fire_due`, one after the other. -/
theorem foldl_putExpired (h : Represents m f) (evq : Co → Option Evq) (l : List Co) :
    Represents (l.foldl (putExpired evq) m) (l.foldl (putEvent evq) f) := by
  induction l generalizing m f with
  | nil => exact h
  | cons a l ih =>
    refine ih ?_
    cases hq : evq a with
    | none => simpa [putExpired, putEvent, hq] using h
    | some q => simpa [putExpired, putEvent, hq] using h.put q (eventOf a)

/-- The second section of a stop. -/
theorem calloutCancel {n : State Co Ev Evq Wk} (h : Represents n.mem f) {evq : Co → Option Evq}
    (hevq : ∀ co, (n.callout co).evq = evq co) (co : Co) :
    ∃ m, Npl.calloutCancel n co = some { n with mem := m } ∧
      Represents m (removeEvent evq f co) := by
  cases hq : evq co with
  | none => exact ⟨n.mem, by simp [Npl.calloutCancel, hevq, hq], by simpa [removeEvent, hq] using h⟩
  | some q =>
    obtain ⟨m, hm, hR⟩ := h.remove q (eventOf co)
    exact ⟨m, by simp [Npl.calloutCancel, hevq, hq, hm], by simpa [removeEvent, hq] using hR⟩

end Represents

/-- The priority queue and the event queues. -/
structure TimerModel (Co Ev Evq : Type*) where
  queue : TimerQueue Co
  evq : Co → Option Evq
  events : Fifos (Co ⊕ Ev) Evq
  now : Instant

namespace TimerModel

def start (f : Fifos (Co ⊕ Ev) Evq) (now : Instant) : TimerModel Co Ev Evq :=
  ⟨TimerQueue.empty, fun _ => none, f, now⟩

def Bound (t : TimerModel Co Ev Evq) (co : Co) : Prop :=
  ∃ q, t.evq co = some q ∧ t.events.initialized q = true

/-- `d` is the least armed deadline, `none` when nothing is armed. -/
def IsNextDeadline (t : TimerModel Co Ev Evq) (d : Option Instant) : Prop :=
  (∀ co x, t.queue.armed co = some x → ∃ e, d = some e ∧ e ≤ x.1) ∧
    ∀ e, d = some e → ∃ co x, t.queue.armed co = some x ∧ x.1 = e

def Due (t : TimerModel Co Ev Evq) (now : Instant) (co : Co) : Prop :=
  ∃ x, t.queue.armed co = some x ∧ x.1 ≤ now

open Classical in
/-- What a call of `timers_fire_due` does: with `now` its last reading of the clock, it
disarms the callouts that are due at `now`, and their events go to the back of their
queues in the order of the priority queue. There is one reading for each of them, and one
more if a callout stays armed. -/
def Fires (t : TimerModel Co Ev Evq) (gaps : List ℕ) (fired : List Co)
    (t' : TimerModel Co Ev Evq) : Prop :=
  ∃ now, now = clockAfter t.now gaps
      (fired.length + if ∀ co, (t.queue.fire now).armed co = none then 0 else 1) ∧
    (∀ co, co ∈ fired ↔ t.Due now co) ∧ fired.Pairwise t.queue.Before ∧
    (∀ co ∈ fired, t.Bound co) ∧
    t' = { t with
      queue := t.queue.fire now, events := fired.foldl (putEvent t.evq) t.events, now := now }

/-- What each call may return and leave behind. -/
def Step (t : TimerModel Co Ev Evq) :
    TimerCall Co Evq Wk → TimerResult Co Ev → TimerModel Co Ev Evq → Prop
  | .init co evq _ _, r, t' => r = .unit ∧ t' = { t with evq := Function.update t.evq co evq }
  | .reset co ticks, r, t' =>
    r = .unit ∧ t' = { t with queue := t.queue.reset co (t.now + ticks) }
  | .stop co, r, t' => r = .unit ∧ t' = { t with
      queue := t.queue.stop co, events := removeEvent t.evq t.events co }
  | .isActive co, r, t' => r = .active (t.queue.armed co).isSome ∧ t' = t
  | .pollNextDeadline _, r, t' => (∃ d, r = .deadline d ∧ t.IsNextDeadline d) ∧ t' = t
  | .fireDue gaps, r, t' => ∃ fired, r = .fired fired ∧ t.Fires gaps fired t'
  | .pop q, r, t' =>
    r = .popped (t.events.pop q).2 ∧ t' = { t with events := (t.events.pop q).1 }
  | .advance ms, r, t' => r = .unit ∧ t' = { t with now := t.now + ms }

end TimerModel

omit [DecidableEq Ev] [DecidableEq Evq] [Fintype Co] [Fintype Ev] in
/-- When the front of the timer list is due and the rest of it is not, the front is all that is
due, and taking it off is what the priority queue does. -/
theorem TimersRepresent.fired_due {n : State Co Ev Evq Wk} {fired rest : List Co}
    {q : TimerQueue Co} (h : TimersRepresent n (fired ++ rest) q) {now : Instant}
    (hfired : ∀ co ∈ fired, ∃ x, q.armed co = some x ∧ x.1 ≤ now)
    (hrest : ∀ co ∈ rest, ∀ x, q.armed co = some x → now < x.1) :
    (∀ co, co ∈ fired ↔ ∃ x, q.armed co = some x ∧ x.1 ≤ now) ∧
      fired.foldl TimerQueue.stop q = q.fire now := by
  have hsplit : ∀ co x, q.armed co = some x → co ∈ fired ∨ co ∈ rest := by
    intro co x hx
    exact List.mem_append.mp ((h.members co).mpr (by simp [hx]))
  constructor
  · intro co
    refine ⟨hfired co, ?_⟩
    rintro ⟨x, hx, hle⟩
    refine (hsplit co x hx).resolve_right (fun hco => ?_)
    exact absurd hle (not_le_of_gt (hrest co hco x hx))
  · exact TimerQueue.foldl_stop_eq_fire hfired
      (fun co hco x hx => hrest co ((hsplit co x hx).resolve_left hco) x hx)

structure TimersRefine (s : Timed Co Ev Evq Wk) (t : TimerModel Co Ev Evq) : Prop where
  timers : ∃ l, TimersRepresent s.npl l t.queue
  evq : ∀ co, (s.npl.callout co).evq = t.evq co
  events : Represents s.npl.mem t.events
  now : s.now = t.now
  bound : ∀ co, (t.queue.armed co).isSome = true → t.Bound co

namespace TimersRefine

variable {s : Timed Co Ev Evq Wk} {t : TimerModel Co Ev Evq}
  {handler : ℕ → Co ⊕ Ev → State Co Ev Evq Wk → State Co Ev Evq Wk}

omit [DecidableEq Co] [DecidableEq Ev] [DecidableEq Evq] [Fintype Co] [Fintype Ev] in
theorem bound_iff (h : TimersRefine s t) (co : Co) : s.npl.Bound co ↔ t.Bound co := by
  simp [State.Bound, TimerModel.Bound, h.evq co, h.events.tag, Option.any_eq_true]

omit [DecidableEq Co] [DecidableEq Ev] [DecidableEq Evq] [Fintype Co] [Fintype Ev] in
/-- The callouts stay bound as long as no queue is deinitialized. -/
theorem bound_events (h : TimersRefine s t) {u : TimerModel Co Ev Evq}
    (hqueue : ∀ co, (u.queue.armed co).isSome = true → (t.queue.armed co).isSome = true)
    (hevq : ∀ co, (u.queue.armed co).isSome = true → u.evq co = t.evq co)
    (hinit : u.events.initialized = t.events.initialized) (co : Co)
    (hco : (u.queue.armed co).isSome = true) : u.Bound co := by
  obtain ⟨q, hq, htag⟩ := h.bound co (hqueue co hco)
  exact ⟨q, by rw [hevq co hco, hq], by rw [hinit, htag]⟩

omit [Fintype Co] [Fintype Ev] [DecidableEq Evq] in
theorem init (h : TimersRefine s t) {co : Co} (hco : (s.npl.callout co).active = false)
    (hqueued : bleNplEventIsQueued s.npl.mem (eventOf co) = false) (evq : Option Evq)
    (func : Option ℕ) (arg : ℕ) :
    TimersRefine { s with npl := bleNplCalloutInit s.npl co evq func arg }
      { t with evq := Function.update t.evq co evq } := by
  obtain ⟨l, hl⟩ := h.timers
  refine ⟨⟨l, hl.init hco evq func arg⟩, fun c => ?_, h.events.eventInit hqueued func arg, h.now,
    ?_⟩
  · by_cases hc : c = co
    · simp [bleNplCalloutInit, hc]
    · simpa [bleNplCalloutInit, hc] using h.evq c
  · refine h.bound_events (fun _ hc => hc) (fun c hc => ?_) rfl
    have hne : c ≠ co := by
      rintro rfl
      rw [← hl.active c, hco] at hc
      exact Bool.false_ne_true hc
    simp [hne]

omit [DecidableEq Ev] [DecidableEq Evq] [Fintype Ev] in
theorem reset (h : TimersRefine s t) {co : Co} (hco : s.npl.Bound co) (ticks : ℕ) :
    ∃ n waker, bleNplCalloutReset s.npl co ticks s.now = some (n, waker) ∧
      TimersRefine { s with npl := n }
        { t with queue := t.queue.reset co (t.now + ticks) } := by
  obtain ⟨l, hl⟩ := h.timers
  obtain ⟨n, l', hn, hl', hframe, -⟩ := hl.reset co ticks s.now
  refine ⟨n, s.npl.timers.waker, hn, ⟨l', ?_⟩, fun c => ?_, ?_, h.now, fun c hc => ?_⟩
  · rw [← h.now]
    exact hl'
  · rw [hframe.evq c, h.evq c]
  · rw [hframe.mem]
    exact h.events
  · by_cases hcc : c = co
    · rw [hcc]
      exact (h.bound_iff co).mp hco
    · exact h.bound c (by simpa [TimerQueue.reset, hcc] using hc)

theorem stop (h : TimersRefine s t) (co : Co) :
    ∃ n, bleNplCalloutStop s.npl co = some n ∧ TimersRefine { s with npl := n } { t with
      queue := t.queue.stop co, events := removeEvent t.evq t.events co } := by
  obtain ⟨l, hl⟩ := h.timers
  obtain ⟨n, hn, hl', hframe, -⟩ := hl.disarm co
  have hevents : Represents n.mem t.events := hframe.mem ▸ h.events
  have hevq : ∀ c, (n.callout c).evq = t.evq c := fun c => (hframe.evq c).trans (h.evq c)
  have hqueue : ∀ c, ((t.queue.stop co).armed c).isSome = true →
      (t.queue.armed c).isSome = true := by
    intro c hc
    obtain ⟨x, hx⟩ := Option.isSome_iff_exists.mp hc
    simp [(TimerQueue.armed_of_stop hx).2]
  obtain ⟨m, hm, hR⟩ := hevents.calloutCancel hevq co
  refine ⟨{ n with mem := m }, ?_, ⟨_, hl'.withMem m⟩, hevq, hR, h.now, ?_⟩
  · rw [bleNplCalloutStop, hn, Option.bind_some, hm]
  · exact h.bound_events hqueue (fun _ _ => rfl) (removeEvent_initialized _ _ _)

omit [DecidableEq Co] [DecidableEq Ev] [DecidableEq Evq] [Fintype Co] [Fintype Ev] in
/-- The head of the list has the least deadline. -/
theorem pollNextDeadline (h : TimersRefine s t) (waker : Wk) :
    t.IsNextDeadline (timersPollNextDeadline s.npl waker).2 := by
  obtain ⟨l, hl⟩ := h.timers
  have hhead : s.npl.timers.head = l.head? := visits_head hl.chain
  cases l with
  | nil =>
    have hnone : ∀ co, t.queue.armed co = none := by
      intro co
      simpa using (hl.members co).not.mp (by simp)
    simp [TimerModel.IsNextDeadline, timersPollNextDeadline, hhead, hnone]
  | cons co l =>
    obtain ⟨x, hx⟩ := Option.isSome_iff_exists.mp ((hl.members co).mp (by simp))
    have hd : (timersPollNextDeadline s.npl waker).2 = some x.1 := by
      simp [timersPollNextDeadline, hhead, hl.deadline co x hx]
    rw [hd]
    refine ⟨fun c y hy => ⟨x.1, rfl, ?_⟩, fun e he => ⟨co, x, hx, by simpa using he⟩⟩
    obtain rfl | hc := List.mem_cons.mp ((hl.members c).mpr (by simp [hy]))
    · rw [Option.some.inj (hx.symm.trans hy)]
    · exact ((List.pairwise_cons.mp hl.order).1 c hc).le hx hy

omit [Fintype Ev] in
theorem fireDue (h : TimersRefine s t)
    (handler : ℕ → Co ⊕ Ev → State Co Ev Evq Wk → State Co Ev Evq Wk) (gaps : List ℕ) :
    ∃ n fired readings, timersFireDue handler (fun k => clockAfter s.now gaps (k + 1))
        (Fintype.card Co + 1) 0 s.npl = some (n, ⟨fired, readings⟩) ∧
      ∃ t', t.Fires gaps fired t' ∧ TimersRefine ⟨n, clockAfter s.now gaps readings⟩ t' := by
  obtain ⟨l, hl⟩ := h.timers
  have hclock : Monotone fun k => clockAfter s.now gaps (k + 1) :=
    fun i j hij => clockAfter_monotone s.now gaps (Nat.succ_le_succ hij)
  have hputs : ∀ co ∈ l, PutsExpired handler (s.npl.callout co).evq co := by
    intro co hco
    obtain ⟨q, hq, -⟩ := h.bound co ((hl.members co).mp hco)
    apply putsExpired_of_bound
    rw [h.evq co, hq]
    rfl
  obtain ⟨fired, rest, n, readings, rfl, hfire, hR, hmem, hevq, -, hreadings, hdue, hlate⟩ :=
    hl.fireDue handler hclock hputs (Nat.lt_succ_of_le (visits_length_le hl.chain)) 0
  obtain ⟨now, hnow⟩ : ∃ now, now = clockAfter s.now gaps readings := ⟨_, rfl⟩
  -- a callout that was looked at was looked at with a reading of the clock
  have hlast : 0 < readings → clockAfter s.now gaps (readings - 1 + 1) = now := by
    intro hpos
    rw [Nat.sub_add_cancel hpos, hnow]
  have hfired : ∀ co ∈ fired, t.Due now co := by
    intro co hco
    obtain ⟨x, hx⟩ := Option.isSome_iff_exists.mp ((hl.members co).mp (by simp [hco]))
    have hpos : 0 < readings := by
      have := List.length_pos_of_mem hco
      omega
    exact ⟨x, hx, by simpa [hlast hpos] using hdue co hco x hx⟩
  have hrest : ∀ co ∈ rest, ∀ x, t.queue.armed co = some x → now < x.1 := by
    intro co hco x hx
    have hpos : 0 < readings := by
      rw [if_neg (List.ne_nil_of_mem hco)] at hreadings
      omega
    simpa [hlast hpos] using hlate co hco x hx
  obtain ⟨hiff, hqueue⟩ := hl.fired_due hfired hrest
  have hempty : (∀ co, (t.queue.fire now).armed co = none) ↔ rest = [] := by
    rw [List.eq_nil_iff_forall_not_mem, ← hqueue]
    refine forall_congr' (fun co => ?_)
    rw [hR.members co, Option.not_isSome_iff_eq_none]
  refine ⟨n, fired, readings, hfire, _, ⟨now, ?_, hiff, ?_, ?_, rfl⟩, ?_⟩
  · simp only [hempty]
    rw [hnow, hreadings, h.now, Nat.zero_add]
  · exact (List.pairwise_append.mp hl.order).1
  · exact fun co hco => h.bound co ((hl.members co).mp (by simp [hco]))
  · have hevq' : (fun c => (s.npl.callout c).evq) = t.evq := funext h.evq
    refine ⟨⟨rest, hqueue ▸ hR⟩, fun c => (hevq c).trans (h.evq c), ?_, hnow.symm, ?_⟩
    · rw [hmem, hevq']
      exact h.events.foldl_putExpired t.evq fired
    · refine h.bound_events (fun co hco => ?_) (fun _ _ => rfl)
        (foldl_putEvent_initialized t.evq fired t.events)
      obtain ⟨x, hx⟩ := Option.isSome_iff_exists.mp hco
      rw [TimerQueue.fire_armed, Option.filter_eq_some_iff] at hx
      rw [hx.1]
      rfl

/-- Every call returns, and is one step of the priority queue. -/
theorem step (h : TimersRefine s t) {a : TimerCall Co Evq Wk} (hp : TimerPromise s a)
    (hspares : SparesQueued s a) :
    ∃ s' r t', timerStep handler s a = some (s', r) ∧ t.Step a r t' ∧ TimersRefine s' t' := by
  cases a with
  | init co evq func arg => exact ⟨_, _, _, rfl, ⟨rfl, rfl⟩, h.init hp hspares evq func arg⟩
  | reset co ticks =>
    obtain ⟨n, waker, hn, hR⟩ := h.reset hp ticks
    exact ⟨_, _, _, by simp [timerStep, hn], ⟨rfl, rfl⟩, hR⟩
  | stop co =>
    obtain ⟨n, hn, hR⟩ := h.stop co
    exact ⟨_, _, _, by simp [timerStep, hn], ⟨rfl, rfl⟩, hR⟩
  | isActive co =>
    obtain ⟨l, hl⟩ := h.timers
    exact ⟨_, _, t, rfl, ⟨congrArg TimerResult.active (hl.active co), rfl⟩, h⟩
  | pollNextDeadline waker =>
    obtain ⟨l, hl⟩ := h.timers
    exact ⟨_, _, t, rfl, ⟨⟨_, rfl, h.pollNextDeadline waker⟩, rfl⟩, ⟨l, hl.waker (some waker)⟩,
      h.evq, h.events, h.now, h.bound⟩
  | fireDue gaps =>
    obtain ⟨n, fired, readings, hn, t', ht', hR⟩ := h.fireDue handler gaps
    exact ⟨_, _, t', by simp [timerStep, hn], ⟨fired, rfl, ht'⟩, hR⟩
  | pop q =>
    obtain ⟨l, hl⟩ := h.timers
    obtain ⟨hpop, hres⟩ := h.events.tryPop q
    refine ⟨_, _, _, rfl, ⟨congrArg TimerResult.popped hres, rfl⟩, ⟨l, hl.withMem _⟩, h.evq, hpop,
      h.now, ?_⟩
    exact h.bound_events (fun _ hc => hc) (fun _ _ => rfl) (Fifos.pop_initialized _ _)
  | advance ms =>
    exact ⟨_, _, _, rfl, ⟨rfl, rfl⟩, h.timers, h.evq, h.events, by simp only [h.now], h.bound⟩

end TimersRefine

section Runs
variable (handler : ℕ → Co ⊕ Ev → State Co Ev Evq Wk → State Co Ev Evq Wk)
  {m : Mem (Co ⊕ Ev) Evq Wk} {f : Fifos (Co ⊕ Ev) Evq}

/-- Over every sequence of calls, from zeroed callouts and any event queues: every call
comes to an end and returns what the priority queue and the FIFO lists return; the timer
list has no cycle and holds exactly the callouts whose active flag is set, each once, by
deadline and then by arming. -/
theorem timers_refine_stable_priority_queue (hm : Represents m f) (now : Instant)
    (calls : List (TimerCall Co Evq Wk))
    (hp : Keeps (silent (timerStep handler)) (fun s a => TimerPromise s a ∧ SparesQueued s a)
      ⟨State.ofMem m, now⟩ calls) :
    ∃ s results t l, trace (timerStep handler) ⟨State.ofMem m, now⟩ calls = some (s, results) ∧
      Explains TimerModel.Step (TimerModel.start f now) calls results t ∧
      Represents s.npl.mem t.events ∧ s.now = t.now ∧
      (∀ co, (s.npl.callout co).evq = t.evq co) ∧ TimersRepresent s.npl l t.queue ∧ l.Nodup ∧
      (∀ co, co ∈ l ↔ (s.npl.callout co).active = true) ∧
      l.Pairwise (fun a b => (s.npl.callout a).deadline ≤ (s.npl.callout b).deadline) := by
  have hstart : TimersRefine (⟨State.ofMem m, now⟩ : Timed Co Ev Evq Wk)
      (TimerModel.start f now) := by
    exact ⟨⟨[], timersRepresent_empty rfl (fun _ => rfl)⟩, fun _ => rfl, hm, rfl, nofun⟩
  obtain ⟨s, results, t, htrace, ht, hR⟩ := trace_explained
    (fun s t a hR hG => hR.step hG.1 hG.2) hstart hp
  obtain ⟨l, hl⟩ := hR.timers
  refine ⟨s, results, t, l, htrace, ht, hR.events, hR.now, hR.evq, hl, hl.nodup, fun co => ?_,
    hl.deadlines⟩
  rw [hl.members co, hl.active co]

/-- Two callouts armed for the same instant and fired in the order of their arming, the first
of them again while its event is still queued, and a third one stopped. -/
theorem timers_refine_stable_priority_queue_rearmed :
    let m : Mem (Fin 3 ⊕ Fin 0) (Fin 1) (Fin 1) := bleNplEventqInit Mem.zeroed 0
    let calls : List (TimerCall (Fin 3) (Fin 1) (Fin 1)) :=
      [.init 0 (some 0) none 0, .init 1 (some 0) none 0, .init 2 (some 0) none 0,
        .reset 1 5, .reset 0 5, .reset 2 9, .pollNextDeadline 0, .fireDue [5, 0, 1],
        .reset 1 1, .stop 2, .fireDue [3], .pop 0, .pop 0, .pop 0]
    ∃ s results t l, trace (timerStep fun _ _ n => n) ⟨State.ofMem m, 100⟩ calls =
        some (s, results) ∧
      results = List.replicate 6 .unit ++ [.deadline (some 105), .fired [1, 0], .unit, .unit,
        .fired [1], .popped (some (eventOf 1)), .popped (some (eventOf 0)), .popped none] ∧
      Explains TimerModel.Step (TimerModel.start (Fifos.empty.init 0) 100) calls results t ∧
      Represents s.npl.mem t.events ∧ s.now = t.now ∧
      (∀ co, (s.npl.callout co).evq = t.evq co) ∧ TimersRepresent s.npl l t.queue ∧ l.Nodup ∧
      (∀ co, co ∈ l ↔ (s.npl.callout co).active = true) ∧
      l.Pairwise (fun a b => (s.npl.callout a).deadline ≤ (s.npl.callout b).deadline) := by
  intro m calls
  have hm : Represents m (Fifos.empty.init 0) := represents_zeroed.eventqInit rfl
  obtain ⟨s, results, t, l, htrace, hrefines⟩ :=
    timers_refine_stable_priority_queue (fun _ _ n => n) hm 100 calls (by decide)
  refine ⟨s, results, t, l, htrace, ?_, hrefines⟩
  have hresults : some results = (trace (timerStep fun _ _ n => n) ⟨State.ofMem m, 100⟩ calls).map
      Prod.snd := by rw [htrace, Option.map_some]
  exact Option.some.inj (hresults.trans rfl)

/-- A callout is initialized while its event is first of two on the queue. The other event
is cut off, and the next callout that fires is linked behind it: its event is on no queue. -/
theorem init_of_queued_callout_loses_expiry :
    let m : Mem (Fin 3 ⊕ Fin 0) (Fin 1) (Fin 1) := bleNplEventqInit Mem.zeroed 0
    let calls : List (TimerCall (Fin 3) (Fin 1) (Fin 1)) :=
      [.init 0 (some 0) none 0, .init 1 (some 0) none 0, .init 2 (some 0) none 0,
        .reset 0 0, .reset 1 0, .fireDue [], .init 0 (some 0) none 0, .reset 2 0, .fireDue []]
    Keeps (silent (timerStep fun _ _ n => n)) TimerPromise ⟨State.ofMem m, 100⟩ calls ∧
      ∃ s results, trace (timerStep fun _ _ n => n) ⟨State.ofMem m, 100⟩ calls =
          some (s, results ++ [.fired [2]]) ∧
        ∀ l, Visits s.npl.mem.next (s.npl.mem.eventq 0).head l → eventOf 2 ∉ l := by
  intro m calls
  have hlost : ∀ s, run (silent (timerStep fun _ _ n => n)) ⟨State.ofMem m, 100⟩ calls = some s →
      ∀ e ∈ collect s.npl.mem.next (Fintype.card (Fin 3 ⊕ Fin 0)) (s.npl.mem.eventq 0).head,
        e ≠ eventOf 2 := by decide
  have hrun : ∃ s, trace (timerStep fun _ _ n => n) ⟨State.ofMem m, 100⟩ calls =
      some (s, List.replicate 5 .unit ++ [.fired [0, 1], .unit, .unit] ++ [.fired [2]]) := ⟨_, rfl⟩
  obtain ⟨s, hs⟩ := hrun
  refine ⟨by decide, s, _, hs, fun l hl => ?_⟩
  rw [← collect_card hl]
  exact fun h => hlost s (run_of_trace hs) _ h rfl

end Runs

end NimbleRs.Npl
