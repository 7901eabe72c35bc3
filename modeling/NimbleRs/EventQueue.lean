import NimbleRs.PointerChain
import NimbleRs.WaitUntil
import Mathlib.Logic.Function.Basic

/-!
# NPL events and event queues

The event and event-queue functions of `npl.rs` on a memory of `Event` and
`EventQueue` cells. A pointer is an address or `none`; an uninitialized cell is
zeroed, as a C static is. Each function body is one critical section, and a waker
that the section takes is returned, because the source wakes it after the section.
The one loop can fail to end on a cyclic chain and then has no result.
-/
namespace NimbleRs.Npl
open PointerChain

structure Event (Ev : Type*) where
  next : Option Ev
  func : Option ℕ
  arg : ℕ
  queued : Bool

structure EventQueue (Ev Evq Wk : Type*) where
  /-- Not null exactly while the queue is initialized. -/
  initTag : Option Evq
  head : Option Ev
  tail : Option Ev
  waker : Option Wk

structure Mem (Ev Evq Wk : Type*) where
  event : Ev → Event Ev
  eventq : Evq → EventQueue Ev Evq Wk

variable {Ev Evq Wk : Type*}

namespace Mem

def zeroed : Mem Ev Evq Wk where
  event _ := ⟨none, none, 0, false⟩
  eventq _ := ⟨none, none, none, none⟩

def next (m : Mem Ev Evq Wk) (ev : Ev) : Option Ev := (m.event ev).next

variable [DecidableEq Ev] [DecidableEq Evq]

def setEvent (m : Mem Ev Evq Wk) (ev : Ev) (v : Event Ev) : Mem Ev Evq Wk :=
  { m with event := Function.update m.event ev v }

def setEventq (m : Mem Ev Evq Wk) (q : Evq) (v : EventQueue Ev Evq Wk) : Mem Ev Evq Wk :=
  { m with eventq := Function.update m.eventq q v }

omit [DecidableEq Evq] in
@[simp] theorem setEvent_event (m : Mem Ev Evq Wk) (ev e : Ev) (v : Event Ev) :
    (m.setEvent ev v).event e = if e = ev then v else m.event e := by
  simp [setEvent, Function.update_apply]

omit [DecidableEq Evq] in
@[simp] theorem setEvent_eventq (m : Mem Ev Evq Wk) (ev : Ev) (v : Event Ev) :
    (m.setEvent ev v).eventq = m.eventq := rfl

omit [DecidableEq Ev] in
@[simp] theorem setEventq_eventq (m : Mem Ev Evq Wk) (q r : Evq) (v : EventQueue Ev Evq Wk) :
    (m.setEventq q v).eventq r = if r = q then v else m.eventq r := by
  simp [setEventq, Function.update_apply]

omit [DecidableEq Ev] in
@[simp] theorem setEventq_event (m : Mem Ev Evq Wk) (q : Evq) (v : EventQueue Ev Evq Wk) :
    (m.setEventq q v).event = m.event := rfl

omit [DecidableEq Evq] in
@[simp] theorem setEvent_next (m : Mem Ev Evq Wk) (ev e : Ev) (v : Event Ev) :
    (m.setEvent ev v).next e = if e = ev then v.next else m.next e := by
  simp only [next, setEvent_event]
  split <;> rfl

omit [DecidableEq Ev] in
@[simp] theorem setEventq_next (m : Mem Ev Evq Wk) (q : Evq) (v : EventQueue Ev Evq Wk) :
    (m.setEventq q v).next = m.next := rfl

end Mem

variable [DecidableEq Ev] [DecidableEq Evq]

def bleNplEventInit (m : Mem Ev Evq Wk) (ev : Ev) (func : Option ℕ) (arg : ℕ) : Mem Ev Evq Wk :=
  m.setEvent ev ⟨none, func, arg, false⟩

/-- `ble_npl_event_deinit`; the event keeps its link. -/
def bleNplEventDeinit (m : Mem Ev Evq Wk) (ev : Ev) : Mem Ev Evq Wk :=
  m.setEvent ev { m.event ev with func := none, queued := false }

def bleNplEventIsQueued (m : Mem Ev Evq Wk) (ev : Ev) : Bool := (m.event ev).queued

def bleNplEventqInit (m : Mem Ev Evq Wk) (q : Evq) : Mem Ev Evq Wk :=
  m.setEventq q ⟨some q, none, none, none⟩

/-- `ble_npl_eventq_deinit`; the events on the queue keep their links and their flags. -/
def bleNplEventqDeinit (m : Mem Ev Evq Wk) (q : Evq) : Mem Ev Evq Wk × Option Wk :=
  (m.setEventq q ⟨none, none, none, none⟩, (m.eventq q).waker)

def bleNplEventqPut (m : Mem Ev Evq Wk) (q : Evq) (ev : Ev) : Mem Ev Evq Wk × Option Wk :=
  if (m.event ev).queued || (m.eventq q).initTag.isNone then (m, none)
  else
    let m := m.setEvent ev { m.event ev with queued := true, next := none }
    let m := match (m.eventq q).tail with
      | none => m.setEventq q { m.eventq q with head := some ev }
      | some t => m.setEvent t { m.event t with next := some ev }
    let m := m.setEventq q { m.eventq q with tail := some ev }
    (m.setEventq q { m.eventq q with waker := none }, (m.eventq q).waker)

def eventqTryPop (m : Mem Ev Evq Wk) (q : Evq) : Mem Ev Evq Wk × Option Ev :=
  match (m.eventq q).head with
  | none => (m, none)
  | some ev =>
    let m := m.setEventq q { m.eventq q with head := m.next ev }
    let m := if (m.eventq q).head.isNone then m.setEventq q { m.eventq q with tail := none } else m
    (m.setEvent ev { m.event ev with next := none, queued := false }, some ev)

/-- `(*q).waker = Some(waker.clone())` -/
def registerWaker (m : Mem Ev Evq Wk) (q : Evq) (waker : Wk) : Mem Ev Evq Wk :=
  m.setEventq q { m.eventq q with waker := some waker }

/-- The first section of `eventq_poll`: looks at the head, registers when empty. -/
def eventqPollHead (m : Mem Ev Evq Wk) (q : Evq) (waker : Wk) : Mem Ev Evq Wk × Bool :=
  if (m.eventq q).head.isNone then (registerWaker m q waker, true) else (m, false)

inductive Poll (α : Type*)
  | pending
  | ready (value : α)
  deriving DecidableEq

def eventqPoll (m : Mem Ev Evq Wk) (q : Evq) (waker : Wk) : Mem Ev Evq Wk × Poll (Option Ev) :=
  let r := eventqPollHead m q waker
  if r.2 then (r.1, .pending)
  else
    let p := eventqTryPop r.1 q
    (p.1, .ready p.2)

/-- A blocked `ble_npl_eventq_get`. -/
structure GetFrame (Evq : Type*) where
  evq : Evq
  deadline : Option Instant
  point : WaitPoint

/-- What a call of `ble_npl_eventq_get` has come to. -/
inductive GetStatus (Ev Evq : Type*)
  | returned (ev : Option Ev)
  | blocked (frame : GetFrame Evq)

/-- `ble_npl_eventq_get` up to its wait loop, over any way to pop an event. -/
def getEnter {σ : Type*} (pop : σ → Evq → σ × Option Ev) (s : σ) (q : Evq) (tmo : ℕ)
    (now : Instant) : σ × GetStatus Ev Evq :=
  let r := pop s q
  if r.2.isNone && tmo ≠ 0 then (r.1, .blocked ⟨q, deadline tmo now, .check⟩)
  else (r.1, .returned r.2)

/-- One point of the wait loop of `ble_npl_eventq_get`. The readiness closure pops
into the captured variable `ev`, which starts out null at every check. -/
def getWait {σ : Type*} (pop : σ → Evq → σ × Option Ev) (register : σ → Evq → σ) (s : σ)
    (f : GetFrame Evq) (now : Instant) : σ × GetStatus Ev Evq :=
  let r := waitStep
    (fun t : σ × Option Ev => let p := pop t.1 f.evq; (p, p.2.isSome))
    (fun t => (register t.1 f.evq, t.2)) (expired f.deadline now) f.point (s, none)
  (r.1.1, match r.2 with
    | .returned _ => .returned r.1.2
    | .waiting point => .blocked { f with point := point })

def bleNplEventqGet (m : Mem Ev Evq Wk) (q : Evq) (tmo : ℕ) (now : Instant) :
    Mem Ev Evq Wk × GetStatus Ev Evq :=
  getEnter eventqTryPop m q tmo now

def bleNplEventqGetWait (m : Mem Ev Evq Wk) (f : GetFrame Evq) (now : Instant) (waker : Wk) :
    Mem Ev Evq Wk × GetStatus Ev Evq :=
  getWait eventqTryPop (fun m q => registerWaker m q waker) m f now

def bleNplEventqIsEmpty (m : Mem Ev Evq Wk) (q : Evq) : Bool := (m.eventq q).head.isNone

/-- The branch of the removal loop that has found the event at `cur`. -/
def removeFound (m : Mem Ev Evq Wk) (q : Evq) (prev : Option Ev) (cur : Ev) : Mem Ev Evq Wk :=
  let m := match prev with
    | none => m.setEventq q { m.eventq q with head := m.next cur }
    | some p => m.setEvent p { m.event p with next := m.next cur }
  let m :=
    if (m.eventq q).tail = some cur then m.setEventq q { m.eventq q with tail := prev } else m
  m.setEvent cur { m.event cur with next := none, queued := false }

variable [Fintype Ev]

/-- The loop of the source takes one turn for each node it passes, so that more
turns than there are events mean that it goes round a cycle. -/
def bleNplEventqRemove (m : Mem Ev Evq Wk) (q : Evq) (ev : Ev) : Option (Mem Ev Evq Wk) :=
  if !(m.event ev).queued then some m
  else
    (walk m.next (· == ev) (Fintype.card Ev + 1) none (m.eventq q).head).map fun r =>
      match r.2 with
      | none => m
      | some cur => removeFound m q r.1 cur

section Slots
/-! A removal leaves the tag of the queue and its waker. -/

omit [Fintype Ev] in
theorem removeFound_slots (m : Mem Ev Evq Wk) (q r : Evq) (prev : Option Ev) (cur : Ev) :
    ((removeFound m q prev cur).eventq r).initTag = (m.eventq r).initTag ∧
      ((removeFound m q prev cur).eventq r).waker = (m.eventq r).waker := by
  unfold removeFound
  by_cases hr : r = q
  · subst hr
    cases prev <;> by_cases ht : (m.eventq r).tail = some cur <;> simp [ht]
  · cases prev <;> by_cases ht : (m.eventq q).tail = some cur <;> simp [ht, hr]

theorem bleNplEventqRemove_slots {m m' : Mem Ev Evq Wk} {q : Evq} {ev : Ev}
    (h : bleNplEventqRemove m q ev = some m') (r : Evq) :
    (m'.eventq r).initTag = (m.eventq r).initTag ∧ (m'.eventq r).waker = (m.eventq r).waker := by
  unfold bleNplEventqRemove at h
  split at h
  · rw [← Option.some.inj h]
    exact ⟨rfl, rfl⟩
  · obtain ⟨⟨prev, cur⟩, -, rfl⟩ := Option.map_eq_some_iff.mp h
    cases cur with
    | none => exact ⟨rfl, rfl⟩
    | some cur => exact removeFound_slots m q r prev cur

omit [Fintype Ev] in
/-- A put leaves a queue alone or takes its waker. -/
theorem bleNplEventqPut_waker (m : Mem Ev Evq Wk) (q r : Evq) (ev : Ev) :
    (bleNplEventqPut m q ev).1.eventq r = m.eventq r ∨
      (bleNplEventqPut m q ev).2 = (m.eventq r).waker := by
  unfold bleNplEventqPut
  split
  · exact .inl rfl
  · by_cases hr : r = q
    · right
      subst hr
      cases ht : (m.eventq r).tail <;> simp [ht]
    · left
      cases ht : (m.eventq q).tail <;> simp [ht, hr]

end Slots

end NimbleRs.Npl
