import NimbleRs.EventQueueInvariant
import NimbleRs.TimerInvariant
import NimbleRs.TransitionSystem
import Mathlib.Tactic

/-!
# Stops beside the servicing of timers

One context takes due callouts off the timer list, hands them to their event queues
and pops events; any contexts reset and stop callouts. A label is one critical
section: an expiry is a take and a later put, and a stop is a disarm and a later
cancel. The machine keeps for which callouts a stop has returned with no reset since.
-/
namespace NimbleRs.Npl
open PointerChain TransitionSystem

structure Raced (Ctx Co Ev Evq Wk : Type*) where
  npl : State Co Ev Evq Wk
  now : Instant
  /-- The callout that `timers_fire_due` has taken and not yet handed on. -/
  hand : Option Co
  /-- The callouts that contexts are in the middle of stopping. -/
  stopping : Ctx → Option Co
  stopped : Co → Bool

inductive RaceStep (Ctx Co Evq : Type*)
  | take
  | put
  | pop (q : Evq)
  /-- `read` is what the call read off the clock before its section. -/
  | reset (co : Co) (ticks : ℕ) (read : Instant)
  | stopDisarm (ctx : Ctx) (co : Co)
  | stopCancel (ctx : Ctx)
  | advance (ms : ℕ)

variable {Ctx Co Ev Evq Wk : Type*} [DecidableEq Ctx] [DecidableEq Co] [DecidableEq Ev]
  [DecidableEq Evq] [Fintype Co] [Fintype Ev]

def raceStep (s : Raced Ctx Co Ev Evq Wk) : RaceStep Ctx Co Evq → Option (Raced Ctx Co Ev Evq Wk)
  | .take =>
    match s.hand with
    | some _ => none
    | none =>
      let r := timersTakeDue s.npl s.now
      some { s with npl := r.1, hand := r.2 }
  | .put => s.hand.map fun co =>
    { s with npl := (calloutExpire (fun _ _ n => n) s.npl co).1, hand := none }
  | .pop q =>
    match s.hand with
    | some _ => none
    | none => some { s with npl := { s.npl with mem := (eventqTryPop s.npl.mem q).1 } }
  | .reset co ticks read =>
    if read ≤ s.now then (bleNplCalloutReset s.npl co ticks read).map fun r =>
      { s with npl := r.1, stopped := Function.update s.stopped co false }
    else none
  | .stopDisarm ctx co =>
    match s.stopping ctx with
    | some _ => none
    | none => (calloutDisarm s.npl co).map fun n =>
      { s with npl := n, stopping := Function.update s.stopping ctx (some co) }
  | .stopCancel ctx => (s.stopping ctx).bind fun co => (calloutCancel s.npl co).map fun n =>
    { s with
      npl := n
      stopping := Function.update s.stopping ctx none
      stopped := Function.update s.stopped co true }
  | .advance ms => some { s with now := s.now + ms }

def Raced.start (n : State Co Ev Evq Wk) (now : Instant) : Raced Ctx Co Ev Evq Wk :=
  ⟨n, now, none, fun _ => none, fun _ => false⟩

/-- A stopped callout is not in the timer list, nor its event on its queue. -/
def StopFinal (s : Raced Ctx Co Ev Evq Wk) : Prop :=
  ∀ co, s.stopped co = true → passes s.npl.next s.npl.timers.head co = false ∧
    ∀ q, (s.npl.callout co).evq = some q →
      passes s.npl.mem.next (s.npl.mem.eventq q).head (eventOf co) = false

/-- The event of a stopped callout is neither put nor popped. -/
def StopRespected (s : Raced Ctx Co Ev Evq Wk) : RaceStep Ctx Co Evq → Prop
  | .put => ∀ co, s.hand = some co → s.stopped co = false
  | .pop q => ∀ co, (eventqTryPop s.npl.mem q).2 = some (eventOf co) → s.stopped co = false
  | _ => True

/-- When a stop comes to its second section, the callout has not been armed again and
is not in the hand of the context that services the timers. -/
def CancelsIdle (s : Raced Ctx Co Ev Evq Wk) : RaceStep Ctx Co Evq → Prop
  | .stopCancel ctx => ∀ co, s.stopping ctx = some co →
    (s.npl.callout co).active = false ∧ s.hand ≠ some co
  | _ => True

/-- What holds while all cancels are of idle callouts. -/
structure StopsHold (s : Raced Ctx Co Ev Evq Wk) : Prop where
  timers : ∃ l t, TimersRepresent s.npl l t
  eventqs : ∃ f, Represents s.npl.mem f ∧
    ∀ co q, eventOf co ∈ f.items q → (s.npl.callout co).evq = some q
  idle : ∀ co, s.stopped co = true → (s.npl.callout co).active = false ∧
    bleNplEventIsQueued s.npl.mem (eventOf co) = false ∧ s.hand ≠ some co

namespace StopsHold

variable {s s' : Raced Ctx Co Ev Evq Wk}

omit [DecidableEq Ctx] [DecidableEq Evq] in
theorem final (h : StopsHold s) : StopFinal s := by
  obtain ⟨⟨l, t, hl⟩, ⟨f, hf, -⟩, hidle⟩ := h
  intro co hco
  obtain ⟨hact, hqueued, -⟩ := hidle co hco
  constructor
  · have hnot : co ∉ l := by
      rw [hl.members co, ← hl.active co, hact]
      exact Bool.false_ne_true
    simpa using (passes_iff hl.chain).not.mpr hnot
  · intro q _
    have hnot : eventOf co ∉ f.items q := fun hmem => hf.not_queued hqueued ⟨q, hmem⟩
    simpa using (passes_iff (hf.chain q)).not.mpr hnot

omit [DecidableEq Ctx] [Fintype Co] [Fintype Ev] in
theorem respected (h : StopsHold s) (a : RaceStep Ctx Co Evq) : StopRespected s a := by
  obtain ⟨-, ⟨f, hf, -⟩, hidle⟩ := h
  cases a with
  | put =>
    intro co hco
    by_contra hstopped
    exact (hidle co (by simpa using hstopped)).2.2 hco
  | pop q =>
    intro co hco
    by_contra hstopped
    obtain ⟨-, hqueued, -⟩ := hidle co (by simpa using hstopped)
    rw [(hf.tryPop q).2] at hco
    exact hf.not_queued hqueued ⟨q, Fifos.popped_mem hco⟩
  | _ => trivial

omit [DecidableEq Ctx] [DecidableEq Ev] [DecidableEq Evq] [Fintype Co] [Fintype Ev] in
theorem take (h : StopsHold s) :
    StopsHold { s with
      npl := (timersTakeDue s.npl s.now).1, hand := (timersTakeDue s.npl s.now).2 } := by
  obtain ⟨⟨l, t, hl⟩, ⟨f, hf, hevq⟩, hidle⟩ := h
  obtain ⟨htake, -⟩ | ⟨co, x, l, n, rfl, hx, -, hn, hl', hframe, -⟩ := hl.takeDue_cases s.now
  · rw [htake]
    refine ⟨⟨l, t, hl⟩, ⟨f, hf, hevq⟩, fun c hc => ?_⟩
    exact ⟨(hidle c hc).1, (hidle c hc).2.1, by simp⟩
  · rw [hn]
    refine ⟨⟨l, _, hl'⟩, ⟨f, ?_, fun c q hc => ?_⟩, fun c hc => ?_⟩
    · rw [hframe.mem]
      exact hf
    · rw [hframe.evq c]
      exact hevq c q hc
    · obtain ⟨hact, hqueued, -⟩ := hidle c hc
      -- the callout that was taken was armed, so no stop of it has returned
      have hne : c ≠ co := by
        rintro rfl
        rw [hl.active c, hx] at hact
        exact absurd hact (by simp)
      refine ⟨?_, by rwa [hframe.mem], fun heq => hne (Option.some.inj heq).symm⟩
      rw [hl'.active c, TimerQueue.stop_armed, if_neg hne, ← hl.active c, hact]

omit [DecidableEq Ctx] [Fintype Co] [Fintype Ev] in
theorem put (h : StopsHold s) {co : Co} (hhand : s.hand = some co) :
    StopsHold { s with
      npl := (calloutExpire (fun _ _ n => n) s.npl co).1, hand := none } := by
  obtain ⟨⟨l, t, hl⟩, ⟨f, hf, hevq⟩, hidle⟩ := h
  obtain ⟨m, f', hm, hf', hsub⟩ := calloutExpire_spec hf co
  rw [hm]
  refine ⟨⟨l, t, hl.withMem m⟩, ⟨f', hf', fun c q hc => ?_⟩, fun c hc => ?_⟩
  · obtain hold | ⟨heq, hq⟩ := hsub q _ hc
    · exact hevq c q hold
    · obtain rfl : c = co := Sum.inl.inj heq
      exact hq
  · obtain ⟨hact, hqueued, hne⟩ := hidle c hc
    refine ⟨hact, hf'.queued_eq_false_iff.mpr (fun q hmem => ?_), by simp⟩
    obtain hold | ⟨heq, -⟩ := hsub q _ hmem
    · exact hf.queued_eq_false_iff.mp hqueued q hold
    · obtain rfl : c = co := Sum.inl.inj heq
      exact hne hhand

omit [DecidableEq Ctx] [Fintype Co] [Fintype Ev] in
theorem pop (h : StopsHold s) (q : Evq) :
    StopsHold { s with npl := { s.npl with mem := (eventqTryPop s.npl.mem q).1 } } := by
  obtain ⟨⟨l, t, hl⟩, ⟨f, hf, hevq⟩, hidle⟩ := h
  have hf' := (hf.tryPop q).1
  refine ⟨⟨l, t, hl.withMem _⟩, ⟨_, hf', fun c r hc => hevq c r (Fifos.mem_pop hc)⟩, fun c hc => ?_⟩
  obtain ⟨hact, hqueued, hne⟩ := hidle c hc
  refine ⟨hact, hf'.queued_eq_false_iff.mpr (fun r hmem => ?_), hne⟩
  exact hf.queued_eq_false_iff.mp hqueued r (Fifos.mem_pop hmem)

theorem reset (h : StopsHold s) {co : Co} {ticks : ℕ} {read : Instant}
    (hstep : raceStep s (.reset co ticks read) = some s') : StopsHold s' := by
  obtain ⟨⟨l, t, hl⟩, ⟨f, hf, hevq⟩, hidle⟩ := h
  obtain ⟨n, l', hn, hl', hframe, -⟩ := hl.reset co ticks read
  by_cases hread : read ≤ s.now
  case neg => simp [raceStep, hread] at hstep
  simp only [raceStep, hread, if_true, hn, Option.map_some, Option.some.injEq] at hstep
  subst hstep
  refine ⟨⟨l', _, hl'⟩, ⟨f, ?_, fun c q hc => ?_⟩, fun c hc => ?_⟩
  · rw [hframe.mem]
    exact hf
  · rw [hframe.evq c]
    exact hevq c q hc
  · by_cases hcc : c = co
    · simp [hcc] at hc
    · obtain ⟨hact, hqueued, hne⟩ := hidle c (by simpa [hcc] using hc)
      refine ⟨?_, by rwa [hframe.mem], hne⟩
      rw [hl'.active c, TimerQueue.reset_armed, if_neg hcc, ← hl.active c, hact]

theorem disarm (h : StopsHold s) {ctx : Ctx} {co : Co}
    (hstep : raceStep s (.stopDisarm ctx co) = some s') : StopsHold s' := by
  obtain ⟨⟨l, t, hl⟩, ⟨f, hf, hevq⟩, hidle⟩ := h
  obtain ⟨n, hn, hl', hframe, -⟩ := hl.disarm co
  cases hstopping : s.stopping ctx with
  | some c => simp [raceStep, hstopping] at hstep
  | none =>
    simp only [raceStep, hstopping, hn, Option.map_some, Option.some.injEq] at hstep
    subst hstep
    refine ⟨⟨_, _, hl'⟩, ⟨f, ?_, fun c q hc => ?_⟩, fun c hc => ?_⟩
    · rw [hframe.mem]
      exact hf
    · rw [hframe.evq c]
      exact hevq c q hc
    · obtain ⟨hact, hqueued, hne⟩ := hidle c hc
      refine ⟨?_, by rwa [hframe.mem], hne⟩
      rw [hl'.active c, TimerQueue.stop_armed]
      by_cases hcc : c = co
      · simp [hcc]
      · rw [if_neg hcc, ← hl.active c, hact]

theorem cancel (h : StopsHold s) {ctx : Ctx} (hcancel : CancelsIdle s (.stopCancel ctx))
    (hstep : raceStep s (.stopCancel ctx) = some s') : StopsHold s' := by
  obtain ⟨⟨l, t, hl⟩, ⟨f, hf, hevq⟩, hidle⟩ := h
  simp only [raceStep, Option.bind_eq_some_iff] at hstep
  obtain ⟨co, hstopping, hstep⟩ := hstep
  obtain ⟨m, f', hm, hf', hsub⟩ := calloutCancel_spec hf co
  simp only [hm, Option.map_some, Option.some.injEq] at hstep
  subst hstep
  refine ⟨⟨l, t, hl.withMem m⟩, ⟨f', hf', fun c q hc => hevq c q (hsub q _ hc).1⟩, fun c hc => ?_⟩
  by_cases hcc : c = co
  · subst hcc
    obtain ⟨hact, hne⟩ := hcancel c hstopping
    refine ⟨hact, hf'.queued_eq_false_iff.mpr (fun q hmem => ?_), hne⟩
    obtain ⟨hold, hgone⟩ := hsub q _ hmem
    exact hgone (hevq c q hold) rfl
  · obtain ⟨hact, hqueued, hne⟩ := hidle c (by simpa [hcc] using hc)
    refine ⟨hact, hf'.queued_eq_false_iff.mpr (fun q hmem => ?_), hne⟩
    exact hf.queued_eq_false_iff.mp hqueued q (hsub q _ hmem).1

theorem step (h : StopsHold s) {a : RaceStep Ctx Co Evq} (hcancel : CancelsIdle s a)
    (hstep : raceStep s a = some s') : StopsHold s' := by
  cases a with
  | take =>
    cases hhand : s.hand with
    | some co => simp [raceStep, hhand] at hstep
    | none =>
      simp only [raceStep, hhand, Option.some.injEq] at hstep
      exact hstep ▸ h.take
  | put =>
    simp only [raceStep, Option.map_eq_some_iff] at hstep
    obtain ⟨co, hhand, rfl⟩ := hstep
    exact h.put hhand
  | pop q =>
    cases hhand : s.hand with
    | some co => simp [raceStep, hhand] at hstep
    | none =>
      simp only [raceStep, hhand, Option.some.injEq] at hstep
      rw [← hstep]
      simpa only [hhand] using h.pop q
  | reset co ticks read => exact h.reset hstep
  | stopDisarm ctx co => exact h.disarm hstep
  | stopCancel ctx => exact h.cancel hcancel hstep
  | advance ms =>
    cases hstep
    exact ⟨h.timers, h.eventqs, h.idle⟩

end StopsHold

instance (s : Raced Ctx Co Ev Evq Wk) (a : RaceStep Ctx Co Evq) : Decidable (CancelsIdle s a) := by
  cases a <;> simp only [CancelsIdle] <;> infer_instance

instance (s : Raced Ctx Co Ev Evq Wk) (a : RaceStep Ctx Co Evq) :
    Decidable (StopRespected s a) := by
  cases a <;> simp only [StopRespected] <;> infer_instance

instance (s : Raced Ctx Co Ev Evq Wk) [Fintype Evq] : Decidable (StopFinal s) := by
  unfold StopFinal
  infer_instance

/-- In every run whose stops come to their second section only with the callout idle,
a stop that has returned is final until the next reset of its callout. -/
theorem callout_stop_final {n : State Co Ev Evq Wk} {f : Fifos (Co ⊕ Ev) Evq}
    (hm : Represents n.mem f) (hf : ∀ co : Co, ¬ f.Queued (eventOf co))
    (hhead : n.timers.head = none) (hact : ∀ co, (n.callout co).active = false) (now : Instant)
    (steps : List (RaceStep Ctx Co Evq))
    (hcancel : Meets raceStep CancelsIdle (Raced.start n now) steps) :
    Always raceStep StopFinal (Raced.start n now) steps ∧
      Meets raceStep StopRespected (Raced.start n now) steps := by
  have hstart : StopsHold (Raced.start n now : Raced Ctx Co Ev Evq Wk) := by
    refine ⟨⟨[], _, timersRepresent_empty hhead hact⟩, ⟨f, hm, ?_⟩, nofun⟩
    exact fun co q hco => absurd ⟨q, hco⟩ (hf co)
  have hstep : ∀ (s : Raced Ctx Co Ev Evq Wk) a s', StopsHold s → CancelsIdle s a →
      raceStep s a = some s' → StopsHold s' := fun _ _ _ h hc hs => h.step hc hs
  exact ⟨always_of_meets hstep (fun _ h => h.final) hstart hcancel,
    meets_of_invariant hstep (fun _ a _ h _ _ => h.respected a) hstart hcancel⟩

/-- A stop of an armed callout, and a stop of one whose event is already queued. -/
theorem callout_stop_final_in_turn :
    let n : State (Fin 2) (Fin 0) (Fin 1) (Fin 1) := State.bound (bleNplEventqInit Mem.zeroed 0) 0
    let steps : List (RaceStep (Fin 2) (Fin 2) (Fin 1)) :=
      [.reset 0 10 0, .reset 1 20 0, .stopDisarm 0 1, .advance 10, .take, .stopCancel 0, .put,
        .stopDisarm 1 0, .stopCancel 1, .pop 0, .reset 1 5 8]
    Always raceStep StopFinal (Raced.start n 0) steps ∧
      Meets raceStep StopRespected (Raced.start n 0) steps :=
  callout_stop_final (represents_zeroed.eventqInit rfl)
    (by simp [Fifos.Queued, Fifos.init, Fifos.empty]) rfl (by simp [State.bound]) 0 _ (by decide)

/-- Both sections of a stop fall between the take and the put of an expiry. -/
theorem stopped_callout_fires :
    let n : State (Fin 1) (Fin 0) (Fin 1) (Fin 1) := State.bound (bleNplEventqInit Mem.zeroed 0) 0
    let steps : List (RaceStep (Fin 1) (Fin 1) (Fin 1)) :=
      [.reset 0 10 0, .advance 10, .take, .stopDisarm 0 0, .stopCancel 0, .put, .pop 0]
    ¬ (Always raceStep StopFinal (Raced.start n 0) steps ∧
      Meets raceStep StopRespected (Raced.start n 0) steps) := by
  decide

end NimbleRs.Npl
