import NimbleRs.EventQueueInvariant
import NimbleRs.TimerInvariant
import NimbleRs.TransitionSystem
import Mathlib.Tactic

/-!
# Callouts that are armed again

One context that calls the callout functions, fires what is due and pops events. A
turn of the `timers_fire_due` loop is a call of its own here: a callout without a
queue has its handler run in the middle of the loop, and what the handler calls
comes between two turns. Beside the state, the machine keeps the last reset or stop
of each callout.
-/
namespace NimbleRs.Npl
open TransitionSystem

inductive LatestCall
  | never
  | reset (deadline : Instant)
  | stopped

/-- The last call was a reset, to a deadline that has passed at `now`. -/
def LatestCall.PassedBy (now : Instant) : LatestCall → Prop
  | .reset deadline => deadline ≤ now
  | _ => False

instance (now : Instant) (c : LatestCall) : Decidable (c.PassedBy now) := by
  cases c <;> simp only [LatestCall.PassedBy] <;> infer_instance

theorem LatestCall.PassedBy.mono {now now' : Instant} {c : LatestCall} (h : c.PassedBy now)
    (hle : now ≤ now') : c.PassedBy now' := by
  cases c with
  | reset deadline => exact le_trans h hle
  | never => exact h
  | stopped => exact h

structure Serviced (Co Ev Evq Wk : Type*) where
  npl : State Co Ev Evq Wk
  now : Instant
  latest : Co → LatestCall

inductive ServiceCall (Co Evq : Type*)
  | init (co : Co) (evq : Option Evq) (func : Option ℕ) (arg : ℕ)
  | reset (co : Co) (ticks : ℕ)
  | stop (co : Co)
  | fireTurn
  | pop (q : Evq)
  | advance (ms : ℕ)

variable {Co Ev Evq Wk : Type*} [DecidableEq Co] [DecidableEq Ev] [DecidableEq Evq]
  [Fintype Co] [Fintype Ev]

/-- One turn of the loop of `timers_fire_due`. -/
def fireTurn (n : State Co Ev Evq Wk) (now : Instant) : State Co Ev Evq Wk :=
  match timersTakeDue n now with
  | (n', none) => n'
  | (n', some co) => (calloutExpire (fun _ _ n => n) n' co).1

def serviceStep (s : Serviced Co Ev Evq Wk) : ServiceCall Co Evq → Option (Serviced Co Ev Evq Wk)
  | .init co evq func arg => some { s with npl := bleNplCalloutInit s.npl co evq func arg }
  | .reset co ticks => (bleNplCalloutReset s.npl co ticks s.now).map fun r =>
    { s with npl := r.1, latest := Function.update s.latest co (.reset (s.now + ticks)) }
  | .stop co => (bleNplCalloutStop s.npl co).map fun n =>
    { s with npl := n, latest := Function.update s.latest co .stopped }
  | .fireTurn => some { s with npl := fireTurn s.npl s.now }
  | .pop q => some { s with npl := { s.npl with mem := (eventqTryPop s.npl.mem q).1 } }
  | .advance ms => some { s with now := s.now + ms }

def Serviced.start (m : Mem (Co ⊕ Ev) Evq Wk) (now : Instant) : Serviced Co Ev Evq Wk :=
  ⟨State.ofMem m, now, fun _ => .never⟩

/-- What the C side promises: it does not initialize an armed or queued callout. -/
def InitPromise (s : Serviced Co Ev Evq Wk) : ServiceCall Co Evq → Prop
  | .init co _ _ _ => (s.npl.callout co).active = false ∧
    bleNplEventIsQueued s.npl.mem (eventOf co) = false
  | _ => True

/-- A callout whose event is popped was last reset, to a deadline that has passed. -/
def PopsOnTime (s : Serviced Co Ev Evq Wk) : ServiceCall Co Evq → Prop
  | .pop q => ∀ co, (eventqTryPop s.npl.mem q).2 = some (eventOf co) →
    (s.latest co).PassedBy s.now
  | _ => True

/-- The event of a callout that is reset is not queued, or the reset is for right now. -/
def ResetsUnqueued (s : Serviced Co Ev Evq Wk) : ServiceCall Co Evq → Prop
  | .reset co ticks => bleNplEventIsQueued s.npl.mem (eventOf co) = false ∨ ticks = 0
  | _ => True

instance (s : Serviced Co Ev Evq Wk) (a : ServiceCall Co Evq) : Decidable (InitPromise s a) := by
  cases a <;> simp only [InitPromise] <;> infer_instance

instance (s : Serviced Co Ev Evq Wk) (a : ServiceCall Co Evq) : Decidable (PopsOnTime s a) := by
  cases a <;> simp only [PopsOnTime] <;> infer_instance

instance (s : Serviced Co Ev Evq Wk) (a : ServiceCall Co Evq) :
    Decidable (ResetsUnqueued s a) := by
  cases a <;> simp only [ResetsUnqueued] <;> infer_instance

/-- What holds while all resets are of unqueued callouts: an armed callout was last
reset to its deadline, and a queued one to a deadline that has passed. -/
structure Punctual (s : Serviced Co Ev Evq Wk) : Prop where
  timers : ∃ l t, TimersRepresent s.npl l t ∧
    ∀ co x, t.armed co = some x → s.latest co = .reset x.1
  eventqs : ∃ f, Represents s.npl.mem f ∧ ∀ co q, eventOf co ∈ f.items q →
    (s.npl.callout co).evq = some q ∧ (s.latest co).PassedBy s.now

namespace Punctual

variable {s : Serviced Co Ev Evq Wk}

omit [DecidableEq Co] [DecidableEq Ev] [DecidableEq Evq] [Fintype Co] [Fintype Ev] in
theorem start {m : Mem (Co ⊕ Ev) Evq Wk} {f : Fifos (Co ⊕ Ev) Evq} (h : Represents m f)
    (hf : ∀ co : Co, ¬ f.Queued (eventOf co)) (now : Instant) :
    Punctual (Serviced.start m now) := by
  refine ⟨⟨[], _, timersRepresent_empty rfl (fun _ => rfl), nofun⟩, f, h, ?_⟩
  exact fun co q hco => absurd ⟨q, hco⟩ (hf co)

omit [DecidableEq Evq] [Fintype Co] [Fintype Ev] in
theorem init (h : Punctual s) {co : Co} (hact : (s.npl.callout co).active = false)
    (hq : bleNplEventIsQueued s.npl.mem (eventOf co) = false) (evq : Option Evq)
    (func : Option ℕ) (arg : ℕ) :
    Punctual { s with npl := bleNplCalloutInit s.npl co evq func arg } := by
  obtain ⟨⟨l, t, hl, harmed⟩, f, hf, hqueued⟩ := h
  refine ⟨⟨l, t, hl.init hact evq func arg, harmed⟩, f, hf.eventInit hq func arg, ?_⟩
  intro c q hc
  have hne : c ≠ co := by
    rintro rfl
    exact hf.not_queued hq ⟨q, hc⟩
  simpa [bleNplCalloutInit, hne] using hqueued c q hc

theorem reset (h : Punctual s) {co : Co} {ticks : ℕ}
    (hreset : bleNplEventIsQueued s.npl.mem (eventOf co) = false ∨ ticks = 0)
    {s' : Serviced Co Ev Evq Wk} (hstep : serviceStep s (.reset co ticks) = some s') :
    Punctual s' := by
  obtain ⟨⟨l, t, hl, harmed⟩, f, hf, hqueued⟩ := h
  obtain ⟨n, l', hn, hl', hframe, -⟩ := hl.reset co ticks s.now
  simp only [serviceStep, hn, Option.map_some, Option.some.injEq] at hstep
  subst hstep
  refine ⟨⟨l', _, hl', fun c x hx => ?_⟩, f, ?_, fun c q hc => ?_⟩
  · by_cases hcc : c = co
    · simp only [TimerQueue.reset, hcc, Function.update_self, Option.some.injEq] at hx
      simp [hcc, ← hx]
    · simp only [TimerQueue.reset, Function.update_of_ne hcc] at hx
      simpa [hcc] using harmed c x hx
  · rw [hframe.mem]
    exact hf
  · obtain ⟨hevq, hpassed⟩ := hqueued c q hc
    refine ⟨by rw [hframe.evq c, hevq], ?_⟩
    by_cases hcc : c = co
    · -- the event stays queued, so the new deadline has to be over as well
      subst hcc
      have hzero : ticks = 0 := hreset.resolve_left (fun hq => hf.not_queued hq ⟨q, hc⟩)
      simp [LatestCall.PassedBy, hzero]
    · simpa [hcc] using hpassed

theorem stop (h : Punctual s) {co : Co} {s' : Serviced Co Ev Evq Wk}
    (hstep : serviceStep s (.stop co) = some s') : Punctual s' := by
  obtain ⟨⟨l, t, hl, harmed⟩, f, hf, hqueued⟩ := h
  obtain ⟨n, hn, hl', hframe, -⟩ := hl.disarm co
  rw [← hframe.mem] at hf
  obtain ⟨m, f', hm, hf', hsub⟩ := calloutCancel_spec hf co
  simp only [serviceStep, bleNplCalloutStop, hn, Option.bind_some, hm, Option.map_some,
    Option.some.injEq] at hstep
  subst hstep
  refine ⟨⟨_, _, hl'.withMem m, fun c x hx => ?_⟩, f', hf', fun c q hc => ?_⟩
  · obtain ⟨hcc, hold⟩ := TimerQueue.armed_of_stop hx
    simpa [hcc] using harmed c x hold
  · obtain ⟨hold, hgone⟩ := hsub q _ hc
    obtain ⟨hevq, hd⟩ := hqueued c q hold
    refine ⟨(hframe.evq c).trans hevq, ?_⟩
    have hcc : c ≠ co := by
      rintro rfl
      exact hgone ((hframe.evq c).trans hevq) rfl
    simpa [hcc] using hd

omit [Fintype Co] [Fintype Ev] in
theorem fireTurn (h : Punctual s) : Punctual { s with npl := fireTurn s.npl s.now } := by
  obtain ⟨⟨l, t, hl, harmed⟩, f, hf, hqueued⟩ := h
  obtain ⟨htake, -⟩ | ⟨co, x, l, n, rfl, hx, hle, hn, hl', hframe, -⟩ := hl.takeDue_cases s.now
  · have hturn : Npl.fireTurn s.npl s.now = s.npl := by
      simp only [Npl.fireTurn, htake]
    rw [hturn]
    exact ⟨⟨l, t, hl, harmed⟩, f, hf, hqueued⟩
  · have hlatest := harmed co x hx
    have harmed' : ∀ c y, (t.stop co).armed c = some y → s.latest c = .reset y.1 :=
      fun c y hy => harmed c y (TimerQueue.armed_of_stop hy).2
    rw [← hframe.mem] at hf
    obtain ⟨m, f', hm, hf', hsub⟩ := calloutExpire_spec hf co
    have hturn : Npl.fireTurn s.npl s.now = { n with mem := m } := by
      simp only [Npl.fireTurn, hn, hm]
    rw [hturn]
    refine ⟨⟨l, _, hl'.withMem _, harmed'⟩, f', hf', fun c r hc => ?_⟩
    obtain hold | ⟨heq, hevq⟩ := hsub r _ hc
    · obtain ⟨hevq, hpassed⟩ := hqueued c r hold
      exact ⟨(hframe.evq c).trans hevq, hpassed⟩
    · obtain rfl : c = co := Sum.inl.inj heq
      refine ⟨hevq, ?_⟩
      rw [hlatest]
      exact hle

/-- A step keeps the invariant when a reset is of an unqueued callout. -/
theorem step (h : Punctual s) {a : ServiceCall Co Evq} {s' : Serviced Co Ev Evq Wk}
    (hp : InitPromise s a) (hreset : ResetsUnqueued s a) (hstep : serviceStep s a = some s') :
    Punctual s' := by
  cases a with
  | init co evq func arg =>
    cases hstep
    exact h.init hp.1 hp.2 evq func arg
  | reset co ticks => exact h.reset hreset hstep
  | stop co => exact h.stop hstep
  | fireTurn =>
    cases hstep
    exact h.fireTurn
  | pop q =>
    cases hstep
    obtain ⟨⟨l, t, hl, harmed⟩, f, hf, hqueued⟩ := h
    refine ⟨⟨l, t, hl.withMem _, harmed⟩, _, (hf.tryPop q).1, fun c r hc => ?_⟩
    exact hqueued c r (Fifos.mem_pop hc)
  | advance ms =>
    cases hstep
    obtain ⟨htimers, f, hf, hqueued⟩ := h
    refine ⟨htimers, f, hf, fun c q hc => ?_⟩
    obtain ⟨hevq, hpassed⟩ := hqueued c q hc
    exact ⟨hevq, hpassed.mono (Nat.le_add_right s.now ms)⟩

omit [Fintype Co] [Fintype Ev] in
theorem popsOnTime (h : Punctual s) (a : ServiceCall Co Evq) : PopsOnTime s a := by
  obtain ⟨-, f, hf, hqueued⟩ := h
  cases a with
  | pop q =>
    intro co hco
    rw [(hf.tryPop q).2] at hco
    exact (hqueued co q (Fifos.popped_mem hco)).2
  | _ => trivial

end Punctual

/-- In every run that resets a callout with a queued event only for right now, no event
of a callout is popped before the deadline of its last reset, nor after a stop. -/
theorem callout_pops_on_time {m : Mem (Co ⊕ Ev) Evq Wk} {f : Fifos (Co ⊕ Ev) Evq}
    (hm : Represents m f) (hf : ∀ co : Co, ¬ f.Queued (eventOf co)) (now : Instant)
    (calls : List (ServiceCall Co Evq))
    (hp : Meets serviceStep InitPromise (Serviced.start m now) calls)
    (hreset : Meets serviceStep ResetsUnqueued (Serviced.start m now) calls) :
    Meets serviceStep PopsOnTime (Serviced.start m now) calls :=
  meets_of_invariant (G := fun s a => InitPromise s a ∧ ResetsUnqueued s a)
    (fun _ _ _ h hg hstep => h.step hg.1 hg.2 hstep) (fun _ a _ h _ _ => h.popsOnTime a)
    (Punctual.start hm hf now) (hp.and hreset)

/-- An expiry that is popped, a reset right now of a callout that has fired, and a stop. -/
theorem callout_pops_on_time_served :
    let m : Mem (Fin 2 ⊕ Fin 0) (Fin 1) (Fin 1) := bleNplEventqInit Mem.zeroed 0
    let calls : List (ServiceCall (Fin 2) (Fin 1)) :=
      [.init 0 (some 0) none 0, .init 1 (some 0) none 0, .reset 0 10, .advance 10, .fireTurn,
        .fireTurn, .pop 0, .reset 0 5, .reset 1 3, .advance 6, .fireTurn, .fireTurn, .reset 1 0,
        .stop 0, .pop 0]
    Meets serviceStep PopsOnTime (Serviced.start m 0) calls :=
  callout_pops_on_time (represents_zeroed.eventqInit rfl)
    (by simp [Fifos.Queued, Fifos.init, Fifos.empty]) 0 _ (by decide)
    (by decide)

/-- An expiry is still queued when its callout is armed again for 90 ms later, and its
event is popped at once. -/
theorem rearmed_callout_pops_early :
    let m : Mem (Fin 1 ⊕ Fin 0) (Fin 1) (Fin 1) := bleNplEventqInit Mem.zeroed 0
    let calls : List (ServiceCall (Fin 1) (Fin 1)) :=
      [.init 0 (some 0) none 0, .reset 0 10, .advance 10, .fireTurn, .reset 0 90, .pop 0]
    Meets serviceStep InitPromise (Serviced.start m 0) calls ∧
      ¬ Meets serviceStep PopsOnTime (Serviced.start m 0) calls := by
  decide

end NimbleRs.Npl
