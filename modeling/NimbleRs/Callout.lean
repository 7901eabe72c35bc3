import NimbleRs.EventQueue

/-!
# NPL callouts and the timer list

The callout functions of `npl.rs`. Callouts form an intrusive list sorted by
deadline, headed by the static `TIMERS`; the event inside a callout lives in the
event memory at the address `eventOf co`. As for the event queues, a function body
is one critical section unless it is split here, taken wakers are returned, and a
list walk that never ends has no result.
-/
namespace NimbleRs.Npl
open PointerChain

structure Callout (Co Evq : Type*) where
  next : Option Co
  deadline : Instant
  active : Bool
  evq : Option Evq

structure Timers (Co Wk : Type*) where
  head : Option Co
  waker : Option Wk

/-- All NPL state: event cells, callout cells and the static `TIMERS`. -/
structure State (Co Ev Evq Wk : Type*) where
  mem : Mem (Co ⊕ Ev) Evq Wk
  callout : Co → Callout Co Evq
  timers : Timers Co Wk

variable {Co Ev Evq Wk : Type*}

/-- `addr_of_mut!((*co).event)` -/
def eventOf (co : Co) : Co ⊕ Ev := .inl co

namespace State

/-- `Instant::MIN` and null pointers, as in zeroed memory. -/
def ofMem (m : Mem (Co ⊕ Ev) Evq Wk) : State Co Ev Evq Wk where
  mem := m
  callout _ := ⟨none, 0, false, none⟩
  timers := ⟨none, none⟩

/-- Callouts that are bound to one queue and otherwise zeroed. -/
def bound (m : Mem (Co ⊕ Ev) Evq Wk) (q : Evq) : State Co Ev Evq Wk :=
  { ofMem m with callout := fun _ => ⟨none, 0, false, some q⟩ }

def next (n : State Co Ev Evq Wk) (co : Co) : Option Co := (n.callout co).next

variable [DecidableEq Co]

def setCallout (n : State Co Ev Evq Wk) (co : Co) (v : Callout Co Evq) : State Co Ev Evq Wk :=
  { n with callout := Function.update n.callout co v }

@[simp] theorem setCallout_callout (n : State Co Ev Evq Wk) (co c : Co) (v : Callout Co Evq) :
    (n.setCallout co v).callout c = if c = co then v else n.callout c := by
  simp [setCallout, Function.update_apply]

@[simp] theorem setCallout_mem (n : State Co Ev Evq Wk) (co : Co) (v : Callout Co Evq) :
    (n.setCallout co v).mem = n.mem := rfl

@[simp] theorem setCallout_timers (n : State Co Ev Evq Wk) (co : Co) (v : Callout Co Evq) :
    (n.setCallout co v).timers = n.timers := rfl

@[simp] theorem setCallout_next (n : State Co Ev Evq Wk) (co c : Co) (v : Callout Co Evq) :
    (n.setCallout co v).next c = if c = co then v.next else n.next c := by
  simp only [next, setCallout_callout]
  split <;> rfl

end State

variable [DecidableEq Co]

/-- The branch of `timers_unlink` that has found the callout behind `prev`. -/
def unlinkFound (n : State Co Ev Evq Wk) (prev : Option Co) (co : Co) : State Co Ev Evq Wk :=
  let n := match prev with
    | none => { n with timers := { n.timers with head := n.next co } }
    | some p => n.setCallout p { n.callout p with next := n.next co }
  n.setCallout co { n.callout co with next := none }

def timersUnlink [Fintype Co] (n : State Co Ev Evq Wk) (co : Co) : Option (State Co Ev Evq Wk) :=
  (walk n.next (· == co) (Fintype.card Co + 1) none n.timers.head).map fun r =>
    match r.2 with
    | none => n
    | some _ => unlinkFound n r.1 co

def bleNplCalloutInit [DecidableEq Ev] (n : State Co Ev Evq Wk) (co : Co) (evq : Option Evq)
    (func : Option ℕ) (arg : ℕ) : State Co Ev Evq Wk :=
  let n := n.setCallout co ⟨none, 0, false, evq⟩
  { n with mem := bleNplEventInit n.mem (eventOf co) func arg }

/-- The sorted insert of `ble_npl_callout_reset` behind the nodes that it passes. -/
def insertBehind (n : State Co Ev Evq Wk) (prev cur : Option Co) (co : Co) : State Co Ev Evq Wk :=
  let n := n.setCallout co { n.callout co with next := cur }
  match prev with
  | none => { n with timers := { n.timers with head := some co } }
  | some p => n.setCallout p { n.callout p with next := some co }

def insertSorted [Fintype Co] (n : State Co Ev Evq Wk) (co : Co) (deadline : Instant) :
    Option (State Co Ev Evq Wk) :=
  (walk n.next (fun c => !decide ((n.callout c).deadline ≤ deadline)) (Fintype.card Co + 1)
    none n.timers.head).map fun r => insertBehind n r.1 r.2 co

def bleNplCalloutReset [Fintype Co] (n : State Co Ev Evq Wk) (co : Co) (ticks : ℕ)
    (now : Instant) : Option (State Co Ev Evq Wk × Option Wk) :=
  let deadline := now + ticks
  (if (n.callout co).active then timersUnlink n co else some n).bind fun n =>
    let n := n.setCallout co { n.callout co with deadline := deadline, active := true }
    (insertSorted n co deadline).map fun n =>
      ({ n with timers := { n.timers with waker := none } }, n.timers.waker)

/-- The first section of `ble_npl_callout_stop`. -/
def calloutDisarm [Fintype Co] (n : State Co Ev Evq Wk) (co : Co) : Option (State Co Ev Evq Wk) :=
  if (n.callout co).active then
    (timersUnlink n co).map fun n => n.setCallout co { n.callout co with active := false }
  else some n

/-- The second section: `ble_npl_eventq_remove` of a fired event that has not run. -/
def calloutCancel [DecidableEq Ev] [DecidableEq Evq] [Fintype Co] [Fintype Ev]
    (n : State Co Ev Evq Wk) (co : Co) : Option (State Co Ev Evq Wk) :=
  match (n.callout co).evq with
  | none => some n
  | some q => (bleNplEventqRemove n.mem q (eventOf co)).map fun m => { n with mem := m }

def bleNplCalloutStop [DecidableEq Ev] [DecidableEq Evq] [Fintype Co] [Fintype Ev]
    (n : State Co Ev Evq Wk) (co : Co) : Option (State Co Ev Evq Wk) :=
  (calloutDisarm n co).bind fun n => calloutCancel n co

def bleNplCalloutIsActive (n : State Co Ev Evq Wk) (co : Co) : Bool := (n.callout co).active

def timersPollNextDeadline (n : State Co Ev Evq Wk) (waker : Wk) :
    State Co Ev Evq Wk × Option Instant :=
  ({ n with timers := { n.timers with waker := some waker } },
    n.timers.head.map fun co => (n.callout co).deadline)

/-- The section of `timers_fire_due` that takes the first callout when it is due. -/
def timersTakeDue (n : State Co Ev Evq Wk) (now : Instant) : State Co Ev Evq Wk × Option Co :=
  match n.timers.head with
  | none => (n, none)
  | some co =>
    if (n.callout co).deadline ≤ now then
      let n := { n with timers := { n.timers with head := n.next co } }
      (n.setCallout co { n.callout co with next := none, active := false }, some co)
    else (n, none)

/-- `ble_npl_event_run`; `handler` is what the C functions do. -/
def bleNplEventRun (handler : ℕ → Co ⊕ Ev → State Co Ev Evq Wk → State Co Ev Evq Wk)
    (n : State Co Ev Evq Wk) (ev : Co ⊕ Ev) : State Co Ev Evq Wk :=
  match (n.mem.event ev).func with
  | none => n
  | some func => handler func ev n

omit [DecidableEq Co] in
@[simp] theorem bleNplEventRun_id (n : State Co Ev Evq Wk) (ev : Co ⊕ Ev) :
    bleNplEventRun (fun _ _ n => n) n ev = n := by
  unfold bleNplEventRun
  cases (n.mem.event ev).func <;> rfl

variable [DecidableEq Ev] [DecidableEq Evq]

/-- What `timers_fire_due` does with a callout it has taken; a waker is returned. -/
def calloutExpire (handler : ℕ → Co ⊕ Ev → State Co Ev Evq Wk → State Co Ev Evq Wk)
    (n : State Co Ev Evq Wk) (co : Co) : State Co Ev Evq Wk × Option Wk :=
  match (n.callout co).evq with
  | none => (bleNplEventRun handler n (eventOf co), none)
  | some q =>
    let r := bleNplEventqPut n.mem q (eventOf co)
    ({ n with mem := r.1 }, r.2)

/-- The callouts that a call of `timers_fire_due` took and how often it read the clock. -/
structure Fired (Co : Type*) where
  callouts : List Co
  readings : ℕ

/-- The loop of `timers_fire_due`. `clock k` is its reading number `k`, which an empty
list makes the source skip. `fuel` bounds the turns. -/
def timersFireDue (handler : ℕ → Co ⊕ Ev → State Co Ev Evq Wk → State Co Ev Evq Wk)
    (clock : ℕ → Instant) : ℕ → ℕ → State Co Ev Evq Wk → Option (State Co Ev Evq Wk × Fired Co)
  | 0, _, _ => none
  | fuel + 1, k, n =>
    match timersTakeDue n (clock k) with
    | (n', none) => some (n', ⟨[], if n.timers.head.isNone then k else k + 1⟩)
    | (n', some co) =>
      (timersFireDue handler clock fuel (k + 1) (calloutExpire handler n' co).1).map fun r =>
        (r.1, { r.2 with callouts := co :: r.2.callouts })

end NimbleRs.Npl
