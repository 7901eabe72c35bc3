import NimbleRs.EventDeinit

/-!
# Queues that are deinitialized

The event calls with `ble_npl_eventq_deinit` among them, as a driver that is torn down and
created again makes them. A queue that is deinitialized is to let go of its events, so that
each of them can be queued again.
-/
namespace NimbleRs.Npl
open PointerChain TransitionSystem

variable {Ev Evq Wk : Type*} [DecidableEq Ev] [DecidableEq Evq]

/-- What deinitializing a queue is to come to. -/
def Fifos.deinit (f : Fifos Ev Evq) (q : Evq) : Fifos Ev Evq :=
  ⟨Function.update f.initialized q false, Function.update f.items q []⟩

inductive LifeCall (Ev Evq : Type*)
  | call (c : EventCall Ev Evq)
  | eventqDeinit (q : Evq)

noncomputable def lifeStep [Fintype Ev] (s : Twin Ev Evq Wk) :
    LifeCall Ev Evq → Option (Twin Ev Evq Wk)
  | .call c => twinStep s c
  | .eventqDeinit q =>
    some { s with mem := (bleNplEventqDeinit s.mem q).1, fifos := s.fifos.deinit q }

/-- Queues are deinitialized, like they are initialized, while they are empty. -/
def Twin.LeavesQueues (s : Twin Ev Evq Wk) : LifeCall Ev Evq → Prop
  | .call c => s.LeavesLinks c
  | .eventqDeinit q => (s.mem.eventq q).head = none

/-- A queue that was torn down and created again. -/
def recreated (m : Mem Ev Evq Wk) (q : Evq) : Mem Ev Evq Wk :=
  bleNplEventqInit (bleNplEventqDeinit m q).1 q

/-- The events that were on the queue are not queued once it is deinitialized, and when it is
created again, a put of one of them onto any initialized queue makes that queue deliver the
event once more than it would have. -/
def Released [Fintype Ev] (m : Mem Ev Evq Wk) (q : Evq) : Prop :=
  ∀ ev ∈ drain q (Fintype.card Ev + 1) m,
    bleNplEventIsQueued (bleNplEventqDeinit m q).1 ev = false ∧
    ∀ r, ((recreated m q).eventq r).initTag.isSome →
      drain r (Fintype.card Ev + 1) (bleNplEventqPut (recreated m q) r ev).1 =
        drain r (Fintype.card Ev + 1) (recreated m q) ++ [ev]

section Release
variable {m : Mem Ev Evq Wk} {f : Fifos Ev Evq}

omit [DecidableEq Ev] in
@[simp] theorem bleNplEventqDeinit_event (m : Mem Ev Evq Wk) (q : Evq) :
    (bleNplEventqDeinit m q).1.event = m.event := rfl

omit [DecidableEq Ev] in
theorem Represents.eventqDeinit (h : Represents m f) {q : Evq}
    (hempty : (m.eventq q).head = none) :
    Represents (bleNplEventqDeinit m q).1 (f.deinit q) :=
  h.freshHeader hempty none

/-- No queue takes an event that was on the queue. -/
theorem Represents.put_recreated (h : Represents m f) {q : Evq} {ev : Ev} (hev : ev ∈ f.items q)
    (r : Evq) : bleNplEventqPut (recreated m q) r ev = (recreated m q, none) := by
  have hqueued : (m.event ev).queued = true := (h.queued ev).mpr ⟨q, hev⟩
  have hsame : ((recreated m q).event ev).queued = true := by
    simpa [recreated, bleNplEventqInit] using hqueued
  simp [bleNplEventqPut, hsame]

/-- Exactly a queue that is empty lets go of its events. -/
theorem Represents.released_iff [Fintype Ev] (h : Represents m f) (q : Evq) :
    Released m q ↔ (m.eventq q).head = none := by
  unfold Released
  rw [h.drain q, visits_none_iff (h.chain q)]
  constructor
  · intro hall
    by_contra hne
    obtain ⟨ev, hev⟩ := List.exists_mem_of_ne_nil _ hne
    have hqueued : (m.event ev).queued = true := (h.queued ev).mpr ⟨q, hev⟩
    have hfree := (hall ev hev).1
    rw [bleNplEventIsQueued, bleNplEventqDeinit_event, hqueued] at hfree
    exact absurd hfree (by decide)
  · intro hnil ev hev
    rw [hnil] at hev
    exact absurd hev (List.not_mem_nil)

end Release

section Lives
variable [Fintype Ev] {s s' : Twin Ev Evq Wk}

theorem Twin.Agrees.lifeStep (h : s.Agrees) {c : LifeCall Ev Evq} (hempty : s.LeavesQueues c)
    (hstep : lifeStep s c = some s') : s'.Agrees := by
  cases c with
  | call c => exact h.step hempty hstep
  | eventqDeinit q =>
    obtain rfl := Option.some.inj hstep
    exact ⟨h.represents.eventqDeinit hempty, h.delivered⟩

theorem Twin.Agrees.not_lifeStep (h : s.Agrees) {c : LifeCall Ev Evq}
    (hempty : ¬ s.LeavesQueues c) (hstep : Npl.lifeStep s c = some s') : ¬ s'.Agrees := by
  cases c with
  | call c => exact h.not_step hempty hstep
  | eventqDeinit q =>
    obtain rfl := Option.some.inj hstep
    obtain ⟨a, ha⟩ := Option.ne_none_iff_exists'.mp hempty
    exact fun h' => absurd h'.represents (h.represents.not_emptied ha rfl)

end Lives

/-- Over a whole run, whatever queues are torn down and created again, a put is taken and its
event delivered once exactly when queues are empty when they are deinitialized. In any state, a
queue lets go of its events exactly when it has none, and no queue ever takes one that it had. -/
theorem eventq_deinit_iff [Fintype Ev] (calls : List (LifeCall Ev Evq)) :
    (Always lifeStep Twin.Agrees (Twin.start : Twin Ev Evq Wk) calls ↔
      Meets lifeStep Twin.LeavesQueues (Twin.start : Twin Ev Evq Wk) calls) ∧
    ∀ (m : Mem Ev Evq Wk) (f : Fifos Ev Evq), Represents m f → ∀ q,
      (Released m q ↔ (m.eventq q).head = none) ∧
      ∀ ev ∈ f.items q, ∀ r, bleNplEventqPut (recreated m q) r ev = (recreated m q, none) := by
  constructor
  · exact always_iff_meets (I := Twin.Agrees) (fun s c s' h hempty hstep => h.lifeStep hempty hstep)
      (fun s h => h) (fun s c s' h hstep hempty => h.not_lifeStep hempty hstep) Twin.Agrees.start
  · exact fun m f h q => ⟨h.released_iff q, fun ev hev r => h.put_recreated hev r⟩

/-- An event that is pending at a teardown is not delivered by the new queue, nor by another. -/
theorem deinit_leaves_events_marked :
    let m : Mem (Fin 2) (Fin 2) (Fin 1) :=
      (bleNplEventqPut (bleNplEventqInit (bleNplEventqInit Mem.zeroed 0) 1) 0 1).1
    ¬ Released m 0 ∧ bleNplEventIsQueued (bleNplEventqDeinit m 0).1 1 = true ∧
      drain 0 3 (bleNplEventqPut (recreated m 0) 0 1).1 = [] ∧
      drain 1 3 (bleNplEventqPut (recreated m 0) 1 1).1 = [] := by
  intro m
  have hqueued : bleNplEventIsQueued (bleNplEventqDeinit m 0).1 1 = true := by decide
  refine ⟨fun h => ?_, hqueued, by decide, by decide⟩
  have hfree := (h 1 (by decide)).1
  rw [hqueued] at hfree
  exact absurd hfree (by decide)

end NimbleRs.Npl
