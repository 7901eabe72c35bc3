import NimbleRs.TimerRefinement
import Mathlib.Tactic

/-!
# The timer list across drivers

`TIMERS` outlives a driver: neither `port::init` nor `port::deinit` touches it. Drivers
are created and dropped one after the other, and the host of each of them initializes
its callouts, arms, stops and fires them. A call of `timers_fire_due` goes section by
section, so that other calls come between its turns: those of the handler that it runs
inline, and those of other contexts. `armedBy` names the driver under which a callout was
armed, until it is stopped, fired or initialized.
-/
namespace NimbleRs.Npl
open PointerChain TransitionSystem

/-- A callout that was fired, the driver that had armed it and the driver that fired it. -/
structure Firing (Co : Type*) where
  callout : Co
  armedBy : Option ℕ
  driver : ℕ

/-- A call of `timers_fire_due` that is under way. -/
structure FireCall (Co : Type*) where
  /-- The callout that has been taken off the list and not been expired. -/
  taken : Option Co
  /-- How many callouts the call has taken. -/
  turns : ℕ
  /-- How many callouts were armed since the call began. -/
  armings : ℕ

structure DriverTimers (Co Ev Evq Wk Call : Type*) where
  npl : State Co Ev Evq Wk
  now : Instant
  alive : Bool
  /-- How many drivers have been created. -/
  driver : ℕ
  /-- Armed when the last driver was dropped, and neither reset nor stopped since. -/
  leftover : Co → Bool
  firing : Call → Option (FireCall Co)
  armedBy : Co → Option ℕ
  firings : List (Firing Co)

inductive DriverStep (Co Ev Evq Call : Type*)
  | create
  | drop
  | init (co : Co) (evq : Option Evq) (func : Option ℕ) (arg : ℕ)
  | reset (co : Co) (ticks : ℕ)
  | stopDisarm (co : Co)
  | stopCancel (co : Co)
  | fireBegin (i : Call)
  | fireTake (i : Call) (gap : ℕ)
  | fireExpire (i : Call)
  | put (q : Evq) (ev : Co ⊕ Ev)
  | pop (q : Evq)
  | advance (ms : ℕ)

variable {Co Ev Evq Wk Call : Type*} [DecidableEq Co] [DecidableEq Ev] [DecidableEq Evq]
  [DecidableEq Call] [Fintype Co] [Fintype Ev]

namespace DriverTimers

def start (m : Mem (Co ⊕ Ev) Evq Wk) : DriverTimers Co Ev Evq Wk Call :=
  ⟨State.ofMem m, 0, false, 0, fun _ => false, fun _ => none, fun _ => none, []⟩

def setFiring (s : DriverTimers Co Ev Evq Wk Call) (i : Call) (c : Option (FireCall Co)) :
    DriverTimers Co Ev Evq Wk Call :=
  { s with firing := Function.update s.firing i c }

/-- The section of the loop that takes a callout; without one the loop ends. -/
def fireTake (s : DriverTimers Co Ev Evq Wk Call) (i : Call) (c : FireCall Co) (gap : ℕ) :
    DriverTimers Co Ev Evq Wk Call :=
  let now := s.now + gap
  match timersTakeDue s.npl now with
  | (n, none) => { s with npl := n, now := now }.setFiring i none
  | (n, some co) =>
    let s : DriverTimers Co Ev Evq Wk Call := { s with
      npl := n
      now := now
      armedBy := Function.update s.armedBy co none
      firings := s.firings ++ [⟨co, s.armedBy co, s.driver⟩] }
    s.setFiring i (some { c with taken := some co, turns := c.turns + 1 })

end DriverTimers

/-- `dflt` is the default queue that `port::init` and `port::deinit` care for. What an
event calls comes as steps of its own, and so does what an inline handler calls: its calls
come after the `fireExpire` that runs it. -/
def driverStep (dflt : Evq) (s : DriverTimers Co Ev Evq Wk Call) :
    DriverStep Co Ev Evq Call → Option (DriverTimers Co Ev Evq Wk Call)
  | .create =>
    if s.alive then none
    else some { s with
      npl := { s.npl with mem := bleNplEventqInit s.npl.mem dflt }
      alive := true
      driver := s.driver + 1 }
  | .drop =>
    if s.alive then some { s with
      npl := { s.npl with mem := (bleNplEventqDeinit s.npl.mem dflt).1 }
      alive := false
      leftover := fun co => (s.npl.callout co).active }
    else none
  | .init co evq func arg =>
    if s.alive then some { s with
      npl := bleNplCalloutInit s.npl co evq func arg
      armedBy := Function.update s.armedBy co none }
    else none
  | .reset co ticks =>
    if s.alive then (bleNplCalloutReset s.npl co ticks s.now).map fun r => { s with
      npl := r.1
      leftover := Function.update s.leftover co false
      firing := fun i => (s.firing i).map fun c => { c with armings := c.armings + 1 }
      armedBy := Function.update s.armedBy co (some s.driver) }
    else none
  | .stopDisarm co =>
    if s.alive then (calloutDisarm s.npl co).map fun n => { s with
      npl := n
      leftover := Function.update s.leftover co false
      armedBy := Function.update s.armedBy co none }
    else none
  | .stopCancel co =>
    if s.alive then (calloutCancel s.npl co).map fun n => { s with npl := n } else none
  | .fireBegin i =>
    if s.alive ∧ (s.firing i).isNone then some (s.setFiring i (some ⟨none, 0, 0⟩)) else none
  | .fireTake i gap =>
    match s.firing i with
    | some ⟨none, turns, armings⟩ =>
      if s.alive then some (s.fireTake i ⟨none, turns, armings⟩ gap) else none
    | _ => none
  | .fireExpire i =>
    match s.firing i with
    | some ⟨some co, turns, armings⟩ =>
      some ({ s with npl := (calloutExpire (fun _ _ n => n) s.npl co).1 }.setFiring i
        (some ⟨none, turns, armings⟩))
    | _ => none
  | .put q ev => some { s with npl := { s.npl with mem := (bleNplEventqPut s.npl.mem q ev).1 } }
  | .pop q => some { s with npl := { s.npl with mem := (eventqTryPop s.npl.mem q).1 } }
  | .advance ms => some { s with now := s.now + ms }

/-- The list has no cycle and has lost no armed callout, every callout that was fired had
been armed under the driver that fired it, and each call of `timers_fire_due` has taken at
most `n` callouts more than there are. -/
structure TimersSurvive (n : ℕ) (s : DriverTimers Co Ev Evq Wk Call) : Prop where
  list : ∃ l, Visits s.npl.next s.npl.timers.head l ∧
    ∀ co, (s.armedBy co).isSome = true → co ∈ l
  firings : ∀ f ∈ s.firings, f.armedBy = some f.driver
  turns : ∀ i, ∀ c ∈ s.firing i, c.turns ≤ Fintype.card Co + n

/-- The loops over the timer list come to an end: the insertion of a reset, and
`timers_unlink` in a reset and in a stop. The other section of a stop goes along an event
queue, and is not among them. The two sections of a turn of `timers_fire_due` come to an end,
too; how many turns there are is for `TimersSurvive` to say. -/
def Terminates (dflt : Evq) (s : DriverTimers Co Ev Evq Wk Call)
    (a : DriverStep Co Ev Evq Call) : Prop :=
  match a with
  | .reset .. | .stopDisarm _ => s.alive = true → (driverStep dflt s a).isSome = true
  | .fireTake i _ => s.alive = true → (∃ c ∈ s.firing i, c.taken.isNone = true) →
    (driverStep dflt s a).isSome = true
  | .fireExpire i => (∃ c ∈ s.firing i, c.taken.isSome = true) →
    (driverStep dflt s a).isSome = true
  | _ => True

instance (dflt : Evq) (s : DriverTimers Co Ev Evq Wk Call) (a : DriverStep Co Ev Evq Call) :
    Decidable (Terminates dflt s a) := by
  cases a <;> simp only [Terminates] <;> infer_instance

/-- No callout is initialized while its active flag is set, and one that was armed when a
driver was dropped, and neither reset nor stopped since, is not due at the head of the
list when a turn of `timers_fire_due` looks at it. -/
def LeavesNoneArmed (s : DriverTimers Co Ev Evq Wk Call) : DriverStep Co Ev Evq Call → Prop
  | .init co _ _ _ => (s.npl.callout co).active = false
  | .fireTake _ gap => ∀ co ∈ s.npl.timers.head, s.leftover co = true →
    s.now + gap < (s.npl.callout co).deadline
  | _ => True

/-- No more than `n` callouts are armed while a call of `timers_fire_due` is under way. -/
def ArmsAtMost (n : ℕ) (s : DriverTimers Co Ev Evq Wk Call) : DriverStep Co Ev Evq Call → Prop
  | .reset _ _ => ∀ i, ∀ c ∈ s.firing i, c.armings < n
  | _ => True

instance (s : DriverTimers Co Ev Evq Wk Call) (a : DriverStep Co Ev Evq Call) :
    Decidable (LeavesNoneArmed s a) := by
  cases a <;> simp only [LeavesNoneArmed] <;> infer_instance

instance [Fintype Call] (n : ℕ) (s : DriverTimers Co Ev Evq Wk Call)
    (a : DriverStep Co Ev Evq Call) : Decidable (ArmsAtMost n s a) := by
  cases a <;> simp only [ArmsAtMost] <;> infer_instance

/-- The callouts that some driver has armed. -/
def armedSet (armedBy : Co → Option ℕ) : Finset Co :=
  Finset.univ.filter fun co => (armedBy co).isSome = true

omit [DecidableEq Co] in
@[simp] theorem mem_armedSet {armedBy : Co → Option ℕ} {co : Co} :
    co ∈ armedSet armedBy ↔ (armedBy co).isSome = true := by simp [armedSet]

theorem armedSet_update_some (armedBy : Co → Option ℕ) (co : Co) (k : ℕ) :
    armedSet (Function.update armedBy co (some k)) = insert co (armedSet armedBy) := by
  ext c
  by_cases hc : c = co
  · simp [hc]
  · simp [hc]

theorem armedSet_update_none (armedBy : Co → Option ℕ) (co : Co) :
    armedSet (Function.update armedBy co none) = (armedSet armedBy).erase co := by
  ext c
  by_cases hc : c = co
  · simp [hc]
  · simp [hc]

/-- The armed callouts are those that some driver has armed: this one, or one that was
dropped and has left them. What a call of `timers_fire_due` has taken was armed when it
began or has been armed since. -/
structure DriverArmed (n : ℕ) (s : DriverTimers Co Ev Evq Wk Call) : Prop where
  timers : ∃ l t, TimersRepresent s.npl l t ∧ ∀ co, (s.armedBy co).isSome = (t.armed co).isSome
  leftover : ∀ co k, s.armedBy co = some k →
    s.alive = true ∧ k = s.driver ∨ s.leftover co = true
  firings : ∀ f ∈ s.firings, f.armedBy = some f.driver
  turns : ∀ i, ∀ c ∈ s.firing i,
    c.turns + (armedSet s.armedBy).card ≤ Fintype.card Co + c.armings
  armings : ∀ i, ∀ c ∈ s.firing i, c.armings ≤ n

namespace DriverArmed

variable {n : ℕ} {s : DriverTimers Co Ev Evq Wk Call}

omit [DecidableEq Co] [DecidableEq Ev] [DecidableEq Evq] [DecidableEq Call] [Fintype Ev] in
theorem start (n : ℕ) (m : Mem (Co ⊕ Ev) Evq Wk) :
    DriverArmed n (DriverTimers.start m : DriverTimers Co Ev Evq Wk Call) where
  timers := ⟨[], TimerQueue.empty, timersRepresent_empty rfl (fun _ => rfl), fun _ => rfl⟩
  leftover := by simp [DriverTimers.start]
  firings := by simp [DriverTimers.start]
  turns := by simp [DriverTimers.start]
  armings := by simp [DriverTimers.start]

omit [DecidableEq Co] [DecidableEq Ev] [DecidableEq Evq] [DecidableEq Call] [Fintype Ev] in
theorem survive (h : DriverArmed n s) : TimersSurvive n s := by
  obtain ⟨l, t, hR, harmed⟩ := h.timers
  refine ⟨⟨l, hR.chain, fun co hco => ?_⟩, h.firings, fun i c hc => ?_⟩
  · rw [hR.members co, ← harmed co]
    exact hco
  · have hturns := h.turns i c hc
    have harmings := h.armings i c hc
    omega

omit [DecidableEq Co] [DecidableEq Ev] [DecidableEq Evq] [DecidableEq Call] [Fintype Ev] in
/-- Queues and events are not part of the timer list. -/
theorem withMem (h : DriverArmed n s) (m : Mem (Co ⊕ Ev) Evq Wk) :
    DriverArmed n { s with npl := { s.npl with mem := m } } := by
  obtain ⟨l, t, hR, harmed⟩ := h.timers
  exact ⟨⟨l, t, hR.withMem m, harmed⟩, h.leftover, h.firings, h.turns, h.armings⟩

omit [DecidableEq Co] [DecidableEq Ev] [DecidableEq Evq] [DecidableEq Call] [Fintype Ev] in
/-- What a driver finds armed was left by the one before it. -/
theorem create (h : DriverArmed n s) (halive : s.alive = false) :
    DriverArmed n { s with alive := true, driver := s.driver + 1 } where
  timers := h.timers
  leftover co k hk := by
    obtain ⟨hlive, -⟩ | hleft := h.leftover co k hk
    · exact absurd (hlive.symm.trans halive) (by simp)
    · exact .inr hleft
  firings := h.firings
  turns := h.turns
  armings := h.armings

omit [DecidableEq Co] [DecidableEq Ev] [DecidableEq Evq] [DecidableEq Call] [Fintype Ev] in
theorem drop (h : DriverArmed n s) : DriverArmed n { s with
    alive := false, leftover := fun co => (s.npl.callout co).active } where
  timers := h.timers
  leftover co k hk := by
    obtain ⟨l, t, hR, harmed⟩ := h.timers
    right
    show (s.npl.callout co).active = true
    rw [hR.active co, ← harmed co, hk]
    rfl
  firings := h.firings
  turns := h.turns
  armings := h.armings

omit [DecidableEq Evq] [DecidableEq Call] [Fintype Ev] in
theorem init (h : DriverArmed n s) {co : Co} (hco : (s.npl.callout co).active = false)
    (evq : Option Evq) (func : Option ℕ) (arg : ℕ) :
    DriverArmed n { s with
      npl := bleNplCalloutInit s.npl co evq func arg
      armedBy := Function.update s.armedBy co none } := by
  obtain ⟨l, t, hR, harmed⟩ := h.timers
  have hnone : s.armedBy co = none := by
    rw [← Option.not_isSome_iff_eq_none, harmed co, ← hR.active co, hco]
    exact Bool.false_ne_true
  have hsame : Function.update s.armedBy co none = s.armedBy := by
    rw [← hnone, Function.update_eq_self]
  rw [hsame]
  exact ⟨⟨l, t, hR.init hco evq func arg, harmed⟩, h.leftover, h.firings, h.turns, h.armings⟩

omit [DecidableEq Ev] [DecidableEq Evq] [DecidableEq Call] [Fintype Ev] in
/-- An arming is one more callout that calls under way can take. -/
theorem reset (h : DriverArmed n s) (halive : s.alive = true) (co : Co) (ticks : ℕ)
    (hroom : ∀ i, ∀ c ∈ s.firing i, c.armings < n) :
    ∃ m w, bleNplCalloutReset s.npl co ticks s.now = some (m, w) ∧ DriverArmed n { s with
      npl := m
      leftover := Function.update s.leftover co false
      firing := fun i => (s.firing i).map fun c => { c with armings := c.armings + 1 }
      armedBy := Function.update s.armedBy co (some s.driver) } := by
  obtain ⟨l, t, hR, harmed⟩ := h.timers
  obtain ⟨m, l', hreset, hR', -, -⟩ := hR.reset co ticks s.now
  refine ⟨m, _, hreset, ⟨l', _, hR', fun c => ?_⟩, fun c k hk => ?_, h.firings, ?_, ?_⟩
  · by_cases hc : c = co
    · simp [hc]
    · simp [hc, harmed c]
  · by_cases hc : c = co
    · left
      simpa [hc, halive, eq_comm] using hk
    · simpa [hc] using h.leftover c k (by simpa [hc] using hk)
  · rintro i _ hd
    obtain ⟨c, hc, rfl⟩ := Option.map_eq_some_iff.mp hd
    have hturns := h.turns i c hc
    have hcard := Finset.card_insert_le co (armedSet s.armedBy)
    simp only [armedSet_update_some]
    omega
  · rintro i _ hd
    obtain ⟨c, hc, rfl⟩ := Option.map_eq_some_iff.mp hd
    exact hroom i c hc

omit [DecidableEq Ev] [DecidableEq Evq] [DecidableEq Call] [Fintype Ev] in
theorem disarm (h : DriverArmed n s) (co : Co) :
    ∃ m, calloutDisarm s.npl co = some m ∧ DriverArmed n { s with
      npl := m
      leftover := Function.update s.leftover co false
      armedBy := Function.update s.armedBy co none } := by
  obtain ⟨l, t, hR, harmed⟩ := h.timers
  obtain ⟨m, hdisarm, hR', -, -⟩ := hR.disarm co
  refine ⟨m, hdisarm, ⟨_, _, hR', fun c => ?_⟩, fun c k hk => ?_, h.firings, fun i c hc => ?_,
    h.armings⟩
  · by_cases hc : c = co
    · simp [hc]
    · simp [hc, harmed c]
  · by_cases hc : c = co
    · simp [hc] at hk
    · simpa [hc] using h.leftover c k (by simpa [hc] using hk)
  · have hturns := h.turns i c hc
    have hcard := Finset.card_le_card (Finset.erase_subset co (armedSet s.armedBy))
    simp only [armedSet_update_none]
    omega

omit [DecidableEq Co] [DecidableEq Ev] [DecidableEq Evq] [Fintype Ev] in
theorem setFiring (h : DriverArmed n s) (i : Call) {d : Option (FireCall Co)}
    (hd : ∀ c ∈ d, c.turns + (armedSet s.armedBy).card ≤ Fintype.card Co + c.armings ∧
      c.armings ≤ n) : DriverArmed n (s.setFiring i d) where
  timers := h.timers
  leftover := h.leftover
  firings := h.firings
  turns j c hc := by
    by_cases hj : j = i
    · exact (hd c (by simpa [DriverTimers.setFiring, hj] using hc)).1
    · exact h.turns j c (by simpa [DriverTimers.setFiring, hj] using hc)
  armings j c hc := by
    by_cases hj : j = i
    · exact (hd c (by simpa [DriverTimers.setFiring, hj] using hc)).2
    · exact h.armings j c (by simpa [DriverTimers.setFiring, hj] using hc)

omit [DecidableEq Ev] [DecidableEq Evq] [Fintype Ev] in
/-- A turn takes the head of the list when it is due, and that one was armed by this driver. -/
theorem fireTake (h : DriverArmed n s) {i : Call} {c : FireCall Co} (hc : c ∈ s.firing i)
    (gap : ℕ) (hhead : ∀ co ∈ s.npl.timers.head, s.leftover co = true →
      s.now + gap < (s.npl.callout co).deadline) : DriverArmed n (s.fireTake i c gap) := by
  obtain ⟨l, t, hR, harmed⟩ := h.timers
  obtain ⟨htake, -⟩ | ⟨co, x, l, m, rfl, hx, hle, htake, hR', -, -⟩ :=
    hR.takeDue_cases (s.now + gap)
  · have hnow : DriverArmed n { s with now := s.now + gap } :=
      ⟨h.timers, h.leftover, h.firings, h.turns, h.armings⟩
    simp only [DriverTimers.fireTake, htake]
    exact hnow.setFiring i (by simp)
  · obtain ⟨k, hk⟩ : ∃ k, s.armedBy co = some k := by
      rw [← Option.isSome_iff_exists, harmed co, hx]
      rfl
    have hdue : (s.npl.callout co).deadline ≤ s.now + gap := by
      rwa [hR.deadline co x hx]
    have hdriver : k = s.driver := by
      obtain ⟨-, hdriver⟩ | hleft := h.leftover co k hk
      · exact hdriver
      · exact absurd hdue (hhead co (visits_head hR.chain) hleft).not_ge
    have hcard : ((armedSet s.armedBy).erase co).card + 1 = (armedSet s.armedBy).card :=
      Finset.card_erase_add_one (by simp [hk])
    have htaken : DriverArmed n { s with
        npl := m
        now := s.now + gap
        armedBy := Function.update s.armedBy co none
        firings := s.firings ++ [⟨co, s.armedBy co, s.driver⟩] } := by
      refine ⟨⟨l, t.stop co, hR', fun b => ?_⟩, fun b j hj => ?_, fun f hf => ?_, fun j d hd => ?_,
        h.armings⟩
      · by_cases hb : b = co
        · simp [hb]
        · simp [hb, harmed b]
      · by_cases hb : b = co
        · simp [hb] at hj
        · exact h.leftover b j (by simpa [hb] using hj)
      · obtain hf | hf := List.mem_append.mp hf
        · exact h.firings f hf
        · obtain rfl := List.mem_singleton.mp hf
          exact hk.trans (congrArg some hdriver)
      · have hturns := h.turns j d hd
        simp only [armedSet_update_none]
        omega
    simp only [DriverTimers.fireTake, htake]
    refine htaken.setFiring i (fun d hd => ?_)
    obtain rfl := Option.some.inj hd
    have hturns := h.turns i c hc
    simp only [armedSet_update_none]
    exact ⟨by omega, h.armings i c hc⟩

end DriverArmed

/-- Every step that leaves none armed keeps the list. -/
theorem driverArmed_step (n : ℕ) (dflt : Evq) {s s' : DriverTimers Co Ev Evq Wk Call}
    {a : DriverStep Co Ev Evq Call} (h : DriverArmed n s) (hcond : LeavesNoneArmed s a)
    (hroom : ArmsAtMost n s a) (hstep : driverStep dflt s a = some s') : DriverArmed n s' := by
  cases a with
  | create =>
    simp only [driverStep, Option.ite_none_left_eq_some, Option.some.injEq] at hstep
    obtain ⟨halive, rfl⟩ := hstep
    exact (h.withMem _).create (by simpa using halive)
  | drop =>
    simp only [driverStep, Option.ite_none_right_eq_some, Option.some.injEq] at hstep
    obtain ⟨-, rfl⟩ := hstep
    exact (h.withMem _).drop
  | init co evq func arg =>
    simp only [driverStep, Option.ite_none_right_eq_some, Option.some.injEq] at hstep
    obtain ⟨-, rfl⟩ := hstep
    exact h.init hcond evq func arg
  | reset co ticks =>
    simp only [driverStep, Option.ite_none_right_eq_some] at hstep
    obtain ⟨halive, hstep⟩ := hstep
    obtain ⟨m, w, hreset, h'⟩ := h.reset halive co ticks hroom
    rw [hreset] at hstep
    obtain rfl := Option.some.inj hstep
    exact h'
  | stopDisarm co =>
    obtain ⟨m, hdisarm, h'⟩ := h.disarm co
    simp only [driverStep, hdisarm, Option.map_some, Option.ite_none_right_eq_some,
      Option.some.injEq] at hstep
    obtain ⟨-, rfl⟩ := hstep
    exact h'
  | stopCancel co =>
    simp only [driverStep, calloutCancel, Option.ite_none_right_eq_some] at hstep
    obtain ⟨-, hstep⟩ := hstep
    split at hstep
    · obtain rfl := Option.some.inj hstep
      exact h
    · simp only [Option.map_map, Option.map_eq_some_iff, Function.comp] at hstep
      obtain ⟨m, -, rfl⟩ := hstep
      exact h.withMem m
  | fireBegin i =>
    simp only [driverStep, Option.ite_none_right_eq_some, Option.some.injEq] at hstep
    obtain ⟨-, rfl⟩ := hstep
    refine h.setFiring i (fun c hc => ?_)
    obtain rfl := Option.some.inj hc
    have hcard := Finset.card_le_univ (armedSet s.armedBy)
    exact ⟨by simpa using hcard, Nat.zero_le n⟩
  | fireTake i gap =>
    simp only [driverStep] at hstep
    split at hstep
    next turns armings hc =>
      simp only [Option.ite_none_right_eq_some, Option.some.injEq] at hstep
      obtain ⟨-, rfl⟩ := hstep
      exact h.fireTake hc gap hcond
    next => simp at hstep
  | fireExpire i =>
    simp only [driverStep] at hstep
    split at hstep
    next co turns armings hc =>
      obtain rfl := Option.some.inj hstep
      rw [putsExpired_of_id (s.npl.callout co).evq co s.npl rfl]
      refine (h.withMem _).setFiring i (fun c hd => ?_)
      obtain rfl := Option.some.inj hd
      exact ⟨h.turns i ⟨some co, turns, armings⟩ hc, h.armings i ⟨some co, turns, armings⟩ hc⟩
    next => simp at hstep
  | put q ev =>
    obtain rfl := Option.some.inj hstep
    exact h.withMem _
  | pop q =>
    obtain rfl := Option.some.inj hstep
    exact h.withMem _
  | advance ms =>
    obtain rfl := Option.some.inj hstep
    exact ⟨h.timers, h.leftover, h.firings, h.turns, h.armings⟩

theorem DriverArmed.terminates (dflt : Evq) {n : ℕ} {s : DriverTimers Co Ev Evq Wk Call}
    (h : DriverArmed n s) (a : DriverStep Co Ev Evq Call) : Terminates dflt s a := by
  obtain ⟨l, t, hR, -⟩ := h.timers
  cases a with
  | reset co ticks =>
    intro halive
    obtain ⟨m, -, hreset, -⟩ := hR.reset co ticks s.now
    simp [driverStep, halive, hreset]
  | stopDisarm co =>
    intro halive
    obtain ⟨m, hdisarm, -⟩ := hR.disarm co
    simp [driverStep, halive, hdisarm]
  | fireTake i gap =>
    rintro halive ⟨⟨taken, turns, armings⟩, hc, htaken⟩
    obtain rfl := Option.isNone_iff_eq_none.mp htaken
    rw [Option.mem_def] at hc
    simp [driverStep, hc, halive]
  | fireExpire i =>
    rintro ⟨⟨taken, turns, armings⟩, hc, htaken⟩
    obtain ⟨co, rfl⟩ := Option.isSome_iff_exists.mp htaken
    rw [Option.mem_def] at hc
    simp [driverStep, hc]
  | _ => trivial

section Rearming
variable {dflt : Evq} {s : DriverTimers Co Ev Evq Wk Call} {co : Co} {i : Call} {k : ℕ}

/-- A call has taken `k` callouts and comes to the next turn; `co`, which has no queue, is
the one that is armed, and is due. -/
structure Rearming (s : DriverTimers Co Ev Evq Wk Call) (co : Co) (i : Call) (k : ℕ) : Prop where
  alive : s.alive = true
  evq : (s.npl.callout co).evq = none
  firing : ∃ armings, s.firing i = some ⟨none, k, armings⟩
  timers : ∃ l t x, TimersRepresent s.npl l t ∧ t.armed co = some x ∧ x.1 ≤ s.now ∧
    ∀ c, (t.armed c).isSome = true → c = co

theorem Rearming.turn (dflt : Evq) (h : Rearming s co i k) :
    ∃ s', run (driverStep dflt) s [.fireTake i 0, .fireExpire i, .reset co 0] = some s' ∧
      Rearming s' co i (k + 1) := by
  obtain ⟨armings, hi⟩ := h.firing
  obtain ⟨l, t, x, hR, hx, hle, honly⟩ := h.timers
  obtain ⟨-, hlate⟩ | ⟨c, y, l', m, rfl, hy, -, htake, hR', hframe, -⟩ :=
    hR.takeDue_cases s.now
  · have hco : co ∈ l := (hR.members co).mpr (by simp [hx])
    exact absurd hle (hlate co hco x hx).not_ge
  · obtain rfl : c = co := honly c (by simp [hy])
    have hevq : (m.callout c).evq = none := (hframe.evq c).trans h.evq
    have hexpire : (calloutExpire (fun _ _ n => n) m c).1 = m := by
      simp [calloutExpire, hevq]
    obtain ⟨m', l₂, hreset, hR₂, hframe₂, -⟩ := hR'.reset c 0 s.now
    obtain ⟨s', hrun, halive, rfl, hnow, hfiring⟩ : ∃ s',
        run (driverStep dflt) s [.fireTake i 0, .fireExpire i, .reset c 0] = some s' ∧
        s'.alive = true ∧ s'.npl = m' ∧ s'.now = s.now ∧
        s'.firing i = some ⟨none, k + 1, armings + 1⟩ := by
      simp [run, driverStep, DriverTimers.fireTake, DriverTimers.setFiring, hi, h.alive, htake,
        hexpire, hreset]
    refine ⟨s', hrun, halive, (hframe₂.evq c).trans hevq, ⟨_, hfiring⟩, l₂, _,
      (s.now + 0, (t.stop c).arms), hR₂, by simp, hnow.ge, fun b hb => ?_⟩
    · by_contra hne
      have hb' : (t.armed b).isSome = true := by simpa [hne] using hb
      exact hne (honly b hb')

/-- The condition on armings is needed: as long as a handler that is run inline arms its
callout with no ticks, the call that runs it goes on. -/
theorem inline_rearm_goes_on (m : Mem (Co ⊕ Ev) Evq Wk) (func : Option ℕ) (arg k : ℕ) :
    ∃ s : DriverTimers Co Ev Evq Wk Call, run (driverStep dflt) (DriverTimers.start m)
        ([.create, .init co none func arg, .reset co 0, .fireBegin i] ++
          (List.replicate k [.fireTake i 0, .fireExpire i, .reset co 0]).flatten) = some s ∧
      ∃ armings, s.firing i = some ⟨none, k, armings⟩ := by
  suffices h : ∃ s : DriverTimers Co Ev Evq Wk Call, run (driverStep dflt) (DriverTimers.start m)
      ([.create, .init co none func arg, .reset co 0, .fireBegin i] ++
        (List.replicate k [.fireTake i 0, .fireExpire i, .reset co 0]).flatten) = some s ∧
      Rearming s co i k by
    obtain ⟨s, hs, hrearming⟩ := h
    exact ⟨s, hs, hrearming.firing⟩
  induction k with
  | zero =>
    obtain ⟨n, hn⟩ : ∃ n, n = bleNplCalloutInit { State.ofMem m with
        mem := bleNplEventqInit (State.ofMem m).mem dflt } co none func arg := ⟨_, rfl⟩
    have hempty : TimersRepresent n [] TimerQueue.empty :=
      hn ▸ (timersRepresent_empty rfl (fun _ => rfl)).init rfl none func arg
    obtain ⟨n', l, hreset, hR, hframe, -⟩ := hempty.reset co 0 0
    obtain ⟨s, hrun, halive, rfl, hnow, hfiring⟩ : ∃ s : DriverTimers Co Ev Evq Wk Call,
        run (driverStep dflt) (DriverTimers.start m)
          [.create, .init co none func arg, .reset co 0, .fireBegin i] = some s ∧
        s.alive = true ∧ s.npl = n' ∧ s.now = 0 ∧ s.firing i = some ⟨none, 0, 0⟩ := by
      simp [run, driverStep, DriverTimers.start, DriverTimers.setFiring, ← hn, hreset]
    have hevq : (s.npl.callout co).evq = none := by
      rw [hframe.evq co, hn]
      simp [bleNplCalloutInit]
    refine ⟨s, hrun, halive, hevq, ⟨0, hfiring⟩, l, _, (0, 0), hR, by simp [TimerQueue.empty],
      hnow.ge, fun c hc => ?_⟩
    by_contra hne
    simp [hne, TimerQueue.empty] at hc
  | succ k ih =>
    obtain ⟨s, hs, hrearming⟩ := ih
    obtain ⟨s', hs', hnext⟩ := hrearming.turn dflt
    refine ⟨s', ?_, hnext⟩
    rw [List.replicate_succ', List.flatten_append, ← List.append_assoc, run_append, hs]
    simpa using hs'

end Rearming

end NimbleRs.Npl
