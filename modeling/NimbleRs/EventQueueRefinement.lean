import NimbleRs.EventQueueInvariant
import NimbleRs.TransitionSystem
import Mathlib.Tactic

/-!
# Calls on the event queues

A machine whose labels are the calls of the event-queue functions. It runs over an
interface `QueueOps`, once on the intrusive cells and once on the FIFO lists. A
`ble_npl_eventq_get` with a timeout takes as many labels as its wait loop has
points, so that the calls of others (a pump poll that delivers a packet to the
host, another thread) can fall in between.
-/
namespace NimbleRs.Npl
open TransitionSystem

structure QueueOps (σ Ev Evq Wk : Type*) where
  init : σ → Evq → σ
  eventInit : σ → Ev → Option ℕ → ℕ → σ
  put : σ → Evq → Ev → σ
  pop : σ → Evq → σ × Option Ev
  poll : σ → Evq → Wk → σ × Poll (Option Ev)
  register : σ → Evq → Wk → σ
  remove : σ → Evq → Ev → Option σ
  isEmpty : σ → Evq → Bool
  isQueued : σ → Ev → Bool

inductive Call (Ctx Ev Evq Wk : Type*)
  | eventqInit (q : Evq)
  | eventInit (ev : Ev) (func : Option ℕ) (arg : ℕ)
  | put (q : Evq) (ev : Ev)
  | poll (q : Evq) (waker : Wk)
  | remove (q : Evq) (ev : Ev)
  | isEmpty (q : Evq)
  | isQueued (ev : Ev)
  | get (ctx : Ctx) (q : Evq) (tmo : ℕ) (now : Instant)
  | getTurn (ctx : Ctx) (now : Instant) (waker : Wk)

inductive CallResult (Ev : Type*)
  | unit
  | polled (p : Poll (Option Ev))
  | got (ev : Option Ev)
  | blocked
  | bool (b : Bool)

/-- The memory and the `ble_npl_eventq_get` calls that are blocked. -/
structure Calls (σ Ctx Evq : Type*) where
  mem : σ
  getting : Ctx → Option (GetFrame Evq)

variable {σ Ctx Ev Evq Wk : Type*} [DecidableEq Ctx]

def Calls.start (mem : σ) : Calls σ Ctx Evq := ⟨mem, fun _ => none⟩

def Calls.settle (s : Calls σ Ctx Evq) (ctx : Ctx) (r : σ × GetStatus Ev Evq) :
    Calls σ Ctx Evq × CallResult Ev :=
  match r.2 with
  | .returned ev => (⟨r.1, Function.update s.getting ctx none⟩, .got ev)
  | .blocked f => (⟨r.1, Function.update s.getting ctx (some f)⟩, .blocked)

def callStep (ops : QueueOps σ Ev Evq Wk) (s : Calls σ Ctx Evq) :
    Call Ctx Ev Evq Wk → Option (Calls σ Ctx Evq × CallResult Ev)
  | .eventqInit q => some ({ s with mem := ops.init s.mem q }, .unit)
  | .eventInit ev func arg => some ({ s with mem := ops.eventInit s.mem ev func arg }, .unit)
  | .put q ev => some ({ s with mem := ops.put s.mem q ev }, .unit)
  | .poll q waker =>
    let r := ops.poll s.mem q waker
    some ({ s with mem := r.1 }, .polled r.2)
  | .remove q ev => (ops.remove s.mem q ev).map fun m => ({ s with mem := m }, .unit)
  | .isEmpty q => some (s, .bool (ops.isEmpty s.mem q))
  | .isQueued ev => some (s, .bool (ops.isQueued s.mem ev))
  | .get ctx q tmo now =>
    match s.getting ctx with
    | some _ => none
    | none => some (s.settle ctx (getEnter ops.pop s.mem q tmo now))
  | .getTurn ctx now waker =>
    (s.getting ctx).map fun f =>
      s.settle ctx (getWait ops.pop (fun m q => ops.register m q waker) s.mem f now)

section Instances
variable [DecidableEq Ev] [DecidableEq Evq]

/-- The functions of the source. -/
def memOps [Fintype Ev] : QueueOps (Mem Ev Evq Wk) Ev Evq Wk where
  init := bleNplEventqInit
  eventInit := bleNplEventInit
  put m q ev := (bleNplEventqPut m q ev).1
  pop := eventqTryPop
  poll := eventqPoll
  register := registerWaker
  remove := bleNplEventqRemove
  isEmpty := bleNplEventqIsEmpty
  isQueued := bleNplEventIsQueued

open Classical in
/-- The same calls on FIFO lists. -/
noncomputable def fifoOps : QueueOps (Fifos Ev Evq) Ev Evq Wk where
  init := Fifos.init
  eventInit f _ _ _ := f
  put := Fifos.put
  pop := Fifos.pop
  poll f q _ :=
    match f.pop q with
    | (_, none) => (f, .pending)
    | (g, some ev) => (g, .ready (some ev))
  register f _ _ := f
  remove f q ev := some (f.remove q ev)
  isEmpty f q := (f.items q).isEmpty
  isQueued f ev := decide (f.Queued ev)

end Instances

/-- What the C side promises: it initializes only empty queues and events that are
not queued, and a context is in one call at a time. -/
def Promise (ops : QueueOps σ Ev Evq Wk) (s : Calls σ Ctx Evq) : Call Ctx Ev Evq Wk → Prop
  | .eventqInit q => ops.isEmpty s.mem q = true
  | .eventInit ev _ _ => ops.isQueued s.mem ev = false
  | .get ctx _ _ _ => (s.getting ctx).isNone
  | .getTurn ctx _ _ => (s.getting ctx).isSome
  | _ => True

instance (ops : QueueOps σ Ev Evq Wk) (s : Calls σ Ctx Evq) (a : Call Ctx Ev Evq Wk) :
    Decidable (Promise ops s a) := by
  cases a <;> simp only [Promise] <;> infer_instance

/-- Cells and lists agree, and the same calls are blocked at the same points. -/
structure CallsRepresent (s : Calls (Mem Ev Evq Wk) Ctx Evq) (t : Calls (Fifos Ev Evq) Ctx Evq) :
    Prop where
  mem : Represents s.mem t.mem
  getting : s.getting = t.getting

section Simulation
variable {τ : Type*} {R : σ → τ → Prop} {pop₁ : σ → Evq → σ × Option Ev}
  {pop₂ : τ → Evq → τ × Option Ev}

theorem getEnter_simulates
    (hpop : ∀ s t q, R s t → R (pop₁ s q).1 (pop₂ t q).1 ∧ (pop₁ s q).2 = (pop₂ t q).2)
    {s : σ} {t : τ} (h : R s t) (q : Evq) (tmo : ℕ) (now : Instant) :
    R (getEnter pop₁ s q tmo now).1 (getEnter pop₂ t q tmo now).1 ∧
      (getEnter pop₁ s q tmo now).2 = (getEnter pop₂ t q tmo now).2 := by
  obtain ⟨hR, heq⟩ := hpop s t q h
  simp only [getEnter, heq]
  split
  · exact ⟨hR, rfl⟩
  · exact ⟨hR, rfl⟩

theorem getWait_simulates
    (hpop : ∀ s t q, R s t → R (pop₁ s q).1 (pop₂ t q).1 ∧ (pop₁ s q).2 = (pop₂ t q).2)
    (register₁ : σ → Evq → σ) (register₂ : τ → Evq → τ)
    (hregister : ∀ s t q, R s t → R (register₁ s q) (register₂ t q))
    {s : σ} {t : τ} (h : R s t) (f : GetFrame Evq) (now : Instant) :
    R (getWait pop₁ register₁ s f now).1 (getWait pop₂ register₂ t f now).1 ∧
      (getWait pop₁ register₁ s f now).2 = (getWait pop₂ register₂ t f now).2 := by
  obtain ⟨hR, heq⟩ := hpop s t f.evq h
  unfold getWait waitStep
  cases hp : f.point.asks with
  | true => simpa only [if_true, heq, and_true] using hR
  | false =>
    by_cases hreg : f.point = .register
    · simpa only [hreg, Bool.false_eq_true, if_true, if_false, and_true] using hregister s t f.evq h
    · simpa only [hreg, Bool.false_eq_true, if_false, and_true] using h

end Simulation

section Refinement
variable [DecidableEq Ev] [DecidableEq Evq] [Fintype Ev]

omit [Fintype Ev] in
theorem Represents.poll {m : Mem Ev Evq Wk} {f : Fifos Ev Evq} (h : Represents m f) (q : Evq)
    (waker : Wk) :
    Represents (eventqPoll m q waker).1 (fifoOps.poll f q waker).1 ∧
      (eventqPoll m q waker).2 = (fifoOps.poll f q waker).2 := by
  obtain ⟨hpop, hev⟩ := h.tryPop q
  have hhead := h.head_isNone q
  cases hitems : f.items q with
  | nil =>
    simp only [hitems, List.isEmpty_nil] at hhead
    have hwaker : Represents (registerWaker m q waker) f := h.waker q (some waker)
    simpa [eventqPoll, eventqPollHead, hhead, fifoOps, Fifos.pop, hitems] using hwaker
  | cons ev l =>
    simp only [hitems, List.isEmpty_cons] at hhead
    simp only [Fifos.pop, hitems] at hpop hev
    simp [eventqPoll, eventqPollHead, hhead, fifoOps, Fifos.pop, hitems, hpop, hev]

omit [DecidableEq Ev] [DecidableEq Evq] [Fintype Ev] in
theorem CallsRepresent.settle {s : Calls (Mem Ev Evq Wk) Ctx Evq}
    {t : Calls (Fifos Ev Evq) Ctx Evq} (h : CallsRepresent s t) (ctx : Ctx)
    {r : Mem Ev Evq Wk × GetStatus Ev Evq} {u : Fifos Ev Evq × GetStatus Ev Evq}
    (hmem : Represents r.1 u.1) (hstatus : r.2 = u.2) :
    ∃ s' t' res, s.settle ctx r = (s', res) ∧ t.settle ctx u = (t', res) ∧
      CallsRepresent s' t' := by
  obtain ⟨m, status⟩ := r
  obtain ⟨f, status'⟩ := u
  obtain rfl : status = status' := hstatus
  cases status with
  | returned ev => exact ⟨_, _, .got ev, rfl, rfl, hmem, by simp [h.getting]⟩
  | blocked g => exact ⟨_, _, .blocked, rfl, rfl, hmem, by simp [h.getting]⟩

/-- One call on the cells is the same call on the lists, with the same result. -/
theorem call_refines (s : Calls (Mem Ev Evq Wk) Ctx Evq) (t : Calls (Fifos Ev Evq) Ctx Evq)
    (a : Call Ctx Ev Evq Wk) (h : CallsRepresent s t) (hp : Promise memOps s a) :
    ∃ s' t' r, callStep memOps s a = some (s', r) ∧ callStep fifoOps t a = some (t', r) ∧
      CallsRepresent s' t' := by
  have hpop := fun (m : Mem Ev Evq Wk) (f : Fifos Ev Evq) q (h : Represents m f) => h.tryPop q
  have hm := h.mem
  have hg := h.getting
  cases a with
  | eventqInit q =>
    have hempty : (s.mem.eventq q).head = none := Option.isNone_iff_eq_none.mp hp
    exact ⟨_, _, _, rfl, rfl, hm.eventqInit hempty, hg⟩
  | eventInit ev func arg => exact ⟨_, _, _, rfl, rfl, hm.eventInit hp func arg, hg⟩
  | put q ev => exact ⟨_, _, _, rfl, rfl, hm.put q ev, hg⟩
  | poll q waker =>
    obtain ⟨hR, heq⟩ := hm.poll q waker
    refine ⟨_, ⟨_, t.getting⟩, _, rfl, ?_, hR, hg⟩
    simp only [callStep, memOps, heq]
  | remove q ev =>
    obtain ⟨m', hm', hR⟩ := hm.remove q ev
    exact ⟨⟨m', s.getting⟩, _, .unit, by simp [callStep, memOps, hm'], rfl, hR, hg⟩
  | isEmpty q =>
    refine ⟨s, t, _, rfl, ?_, h⟩
    simp [callStep, memOps, fifoOps, bleNplEventqIsEmpty, hm.head_isNone q]
  | isQueued ev =>
    have hflag : (s.mem.event ev).queued =
        (fifoOps : QueueOps (Fifos Ev Evq) Ev Evq Wk).isQueued t.mem ev := by
      rw [Bool.eq_iff_iff]
      simpa [fifoOps] using hm.queued ev
    refine ⟨s, t, _, rfl, ?_, h⟩
    simp only [callStep, memOps, bleNplEventIsQueued, hflag]
  | get ctx q tmo now =>
    obtain ⟨hR, heq⟩ := getEnter_simulates hpop hm q tmo now
    obtain ⟨s', t', res, hs', ht', hC⟩ := h.settle ctx hR heq
    have hs : s.getting ctx = none := Option.isNone_iff_eq_none.mp hp
    have ht : t.getting ctx = none := by rw [← hg, hs]
    have hstep : callStep memOps s (.get ctx q tmo now) =
        some (s.settle ctx (bleNplEventqGet s.mem q tmo now)) := by
      simp [callStep, hs, memOps, bleNplEventqGet]
    have hspec : callStep fifoOps t (.get ctx q tmo now : Call Ctx Ev Evq Wk) =
        some (t.settle ctx (getEnter Fifos.pop t.mem q tmo now)) := by
      simp [callStep, ht, fifoOps]
    exact ⟨s', t', res, hstep.trans (congrArg some hs'), by rw [hspec, ht'], hC⟩
  | getTurn ctx now waker =>
    obtain ⟨f, hs⟩ := Option.isSome_iff_exists.mp hp
    have ht : t.getting ctx = some f := by rw [← hg, hs]
    obtain ⟨hR, heq⟩ := getWait_simulates hpop (fun m q => registerWaker m q waker)
      (fun f _ => f) (fun _ _ q h => h.waker q _) hm f now
    obtain ⟨s', t', res, hs', ht', hC⟩ := h.settle ctx hR heq
    have hstep : callStep memOps s (.getTurn ctx now waker) =
        some (s.settle ctx (bleNplEventqGetWait s.mem f now waker)) := by
      simp [callStep, hs, memOps, bleNplEventqGetWait]
    have hspec : callStep fifoOps t (.getTurn ctx now waker) =
        some (t.settle ctx (getWait Fifos.pop (fun f _ => f) t.mem f now)) := by
      simp [callStep, ht, fifoOps]
    exact ⟨s', t', res, hstep.trans (congrArg some hs'), by rw [hspec, ht'], hC⟩

end Refinement

section Ledger
variable [DecidableEq Ev] [DecidableEq Evq]

/-- No event is on two lists, or twice on one. -/
structure Fifos.Proper (f : Fifos Ev Evq) : Prop where
  nodup : ∀ q, (f.items q).Nodup
  disjoint : ∀ q r ev, ev ∈ f.items q → ev ∈ f.items r → q = r

open Classical in
/-- 1 for a put that the lists accept, else 0. -/
noncomputable def accepted (ev : Ev) (t : Calls (Fifos Ev Evq) Ctx Evq) :
    Call Ctx Ev Evq Wk → CallResult Ev → ℕ
  | .put q e, _ => if e = ev ∧ ¬ t.mem.Queued e ∧ t.mem.initialized q = true then 1 else 0
  | _, _ => 0

/-- 1 for a removal from the queue that the event is on, else 0. -/
def removed (ev : Ev) (t : Calls (Fifos Ev Evq) Ctx Evq) :
    Call Ctx Ev Evq Wk → CallResult Ev → ℕ
  | .remove q e, _ => if e = ev ∧ e ∈ t.mem.items q then 1 else 0
  | _, _ => 0

/-- 1 for a call that hands the event out, else 0. -/
def delivered (ev : Ev) (_ : Calls (Fifos Ev Evq) Ctx Evq) :
    Call Ctx Ev Evq Wk → CallResult Ev → ℕ
  | _, .polled (.ready (some e)) => if e = ev then 1 else 0
  | _, .got (some e) => if e = ev then 1 else 0
  | _, _ => 0

open Classical in
noncomputable def onQueue (ev : Ev) (f : Fifos Ev Evq) : ℕ := if f.Queued ev then 1 else 0

omit [DecidableEq Ev] [DecidableEq Evq] in
theorem onQueue_congr {f g : Fifos Ev Evq} {ev : Ev} (h : f.Queued ev ↔ g.Queued ev) :
    onQueue ev f = onQueue ev g := by
  classical
  exact if_congr h rfl rfl

omit [DecidableEq Ev] [DecidableEq Evq] in
theorem Represents.proper {m : Mem Ev Evq Wk} {f : Fifos Ev Evq} (h : Represents m f) :
    f.Proper := ⟨h.nodup, h.disjoint⟩

omit [DecidableEq Ev] in
/-- Replacing a list takes off exactly the events that the new list leaves out. -/
theorem Fifos.Proper.queued_setItems {f : Fifos Ev Evq} (h : f.Proper) {q : Evq} {l : List Ev}
    (hl : List.Sublist l (f.items q)) (ev : Ev) :
    (f.setItems q l).Queued ev ↔ f.Queued ev ∧ (ev ∈ f.items q → ev ∈ l) := by
  constructor
  · rintro ⟨r, hr⟩
    by_cases hrq : r = q
    · subst hrq
      simp only [setItems_items, if_true] at hr
      exact ⟨⟨r, hl.subset hr⟩, fun _ => hr⟩
    · simp only [setItems_items, hrq, if_false] at hr
      exact ⟨⟨r, hr⟩, fun hq => absurd (h.disjoint r q ev hr hq) hrq⟩
  · rintro ⟨⟨r, hr⟩, hq⟩
    by_cases hrq : r = q
    · subst hrq
      exact ⟨r, by simpa using hq hr⟩
    · exact ⟨r, by simpa [hrq] using hr⟩

/-- A pop takes the event it returns off its queue and no other. -/
theorem Fifos.Proper.onQueue_pop {f : Fifos Ev Evq} (h : f.Proper) (q : Evq) (ev : Ev) :
    onQueue ev f = onQueue ev (f.pop q).1 + if (f.pop q).2 = some ev then 1 else 0 := by
  cases hitems : f.items q with
  | nil => simp [Fifos.pop, hitems]
  | cons e l =>
    have hsub : List.Sublist l (f.items q) := hitems ▸ List.sublist_cons_self e l
    have hnot : e ∉ l := (List.nodup_cons.mp (hitems ▸ h.nodup q)).1
    have hpop : f.pop q = (f.setItems q l, some e) := by simp [Fifos.pop, hitems]
    have hiff := h.queued_setItems hsub ev
    rw [hitems, List.mem_cons] at hiff
    rw [hpop]
    by_cases he : e = ev
    · subst he
      have hq : f.Queued e := ⟨q, by simp [hitems]⟩
      have hgone : ¬ (f.setItems q l).Queued e := by simp [hiff, hnot]
      simp [onQueue, hq, hgone]
    · have hsame : (f.setItems q l).Queued ev ↔ f.Queued ev := by
        rw [hiff]
        exact and_iff_left (fun hm => hm.resolve_left (Ne.symm he))
      simp [onQueue_congr hsame, he]

theorem Fifos.Proper.onQueue_remove {f : Fifos Ev Evq} (h : f.Proper) (q : Evq) (e ev : Ev) :
    onQueue ev f =
      onQueue ev (f.remove q e) + if e = ev ∧ e ∈ f.items q then 1 else 0 := by
  have hiff := h.queued_setItems (List.erase_sublist (a := e) (l := f.items q)) ev
  by_cases he : e = ev ∧ e ∈ f.items q
  · obtain ⟨rfl, hmem⟩ := he
    have hq : f.Queued e := ⟨q, hmem⟩
    have hgone : ¬ (f.remove q e).Queued e := by
      rw [Fifos.remove, hiff]
      exact fun hr => ((h.nodup q).mem_erase_iff.mp (hr.2 hmem)).1 rfl
    simp [onQueue, hq, hgone, hmem]
  · have hsame : (f.remove q e).Queued ev ↔ f.Queued ev := by
      rw [Fifos.remove, hiff]
      refine and_iff_left (fun hm => (h.nodup q).mem_erase_iff.mpr ⟨?_, hm⟩)
      rintro rfl
      exact he ⟨rfl, hm⟩
    simp [onQueue_congr hsame, he]

theorem Fifos.onQueue_put (f : Fifos Ev Evq) (q : Evq) (e ev : Ev) :
    onQueue ev (f.put q e) =
      onQueue ev f +
        open Classical in if e = ev ∧ ¬ f.Queued e ∧ f.initialized q = true then 1 else 0 := by
  by_cases hrej : f.Queued e ∨ f.initialized q = false
  · have hnot : ¬ (e = ev ∧ ¬ f.Queued e ∧ f.initialized q = true) := by
      rintro ⟨-, hq, hi⟩
      rcases hrej with hr | hr
      · exact hq hr
      · simp [hr] at hi
    simp [Fifos.put, hrej, hnot]
  · have hput : f.put q e = f.setItems q (f.items q ++ [e]) := by
      simp only [Fifos.put, hrej, if_false]
    have hiff : (f.put q e).Queued ev ↔ f.Queued ev ∨ e = ev := by
      rw [hput, queued_append_items]
      exact or_congr_right eq_comm
    push Not at hrej
    by_cases he : e = ev
    · subst he
      simp [onQueue, hiff, hrej]
    · have hsame : (f.put q e).Queued ev ↔ f.Queued ev := by simp [hiff, he]
      simp [onQueue_congr hsame, he]

omit [DecidableEq Ev] in
/-- A get pops at most once, and returns the event that it popped. -/
theorem getEnter_pop (f : Fifos Ev Evq) (q : Evq) (tmo : ℕ) (now : Instant) :
    (∃ st, getEnter Fifos.pop f q tmo now = (f, st) ∧ ∀ ev, st ≠ .returned (some ev)) ∨
      getEnter Fifos.pop f q tmo now = ((f.pop q).1, .returned (f.pop q).2) := by
  cases hitems : f.items q with
  | nil =>
    left
    by_cases ht : tmo = 0 <;> simp [getEnter, Fifos.pop, hitems, ht]
  | cons e l =>
    right
    simp [getEnter, Fifos.pop, hitems]

omit [DecidableEq Ev] in
theorem getWait_pop (f : Fifos Ev Evq) (g : GetFrame Evq) (now : Instant) :
    (∃ st, getWait Fifos.pop (fun f _ => f) f g now = (f, st) ∧
      ∀ ev, st ≠ .returned (some ev)) ∨
      getWait Fifos.pop (fun f _ => f) f g now = ((f.pop g.evq).1, .returned (f.pop g.evq).2) := by
  obtain ⟨q, d, p⟩ := g
  cases hitems : f.items q with
  | nil =>
    left
    cases p <;> cases hx : expired d now <;>
      simp [getWait, waitStep, WaitPoint.asks, WaitPoint.next, Fifos.pop, hitems, hx]
  | cons e l =>
    cases p <;> cases hx : expired d now <;>
      simp [getWait, waitStep, WaitPoint.asks, WaitPoint.next, Fifos.pop, hitems, hx]

/-- What is on a queue, with what a call puts there, is what is still on a queue
with what the call hands out or removes. -/
theorem call_balance (ev : Ev) {t t' : Calls (Fifos Ev Evq) Ctx Evq} {a : Call Ctx Ev Evq Wk}
    {r : CallResult Ev} (h : t.mem.Proper) (hp : Promise fifoOps t a)
    (hstep : callStep fifoOps t a = some (t', r)) :
    onQueue ev t.mem + accepted ev t a r =
      onQueue ev t'.mem + (delivered ev t a r + removed ev t a r) := by
  have hpop := fun q => h.onQueue_pop q ev
  have hsettle : ∀ ctx (x : Fifos Ev Evq × GetStatus Ev Evq) q,
      ((∃ st, x = (t.mem, st) ∧ ∀ e, st ≠ .returned (some e)) ∨
        x = ((t.mem.pop q).1, .returned (t.mem.pop q).2)) →
      t.settle ctx x = (t', r) → onQueue ev t.mem = onQueue ev t'.mem + delivered ev t a r := by
    rintro ctx x q (⟨st, rfl, hst⟩ | rfl) heq
    · cases st with
      | returned e =>
        cases e with
        | none => cases heq; cases a <;> simp [delivered]
        | some e => exact absurd rfl (hst e)
      | blocked f => cases heq; cases a <;> simp [delivered]
    · cases heq
      have := hpop q
      cases hev : (t.mem.pop q).2 with
      | none => rw [hev] at this; cases a <;> simpa [delivered] using this
      | some e => rw [hev] at this; cases a <;> simpa [delivered] using this
  cases a with
  | eventqInit q =>
    cases hstep
    have hempty : t.mem.items q = [] := List.isEmpty_iff.mp hp
    have hsame : (t.mem.init q).Queued ev ↔ t.mem.Queued ev := by
      refine exists_congr (fun r => ?_)
      by_cases hr : r = q <;> simp [Fifos.init, hr, hempty]
    simpa [accepted, delivered, removed, fifoOps] using (onQueue_congr hsame).symm
  | eventInit e func arg =>
    cases hstep
    simp [accepted, delivered, removed, fifoOps]
  | put q e =>
    cases hstep
    simp [accepted, delivered, removed, fifoOps, Fifos.onQueue_put]
  | poll q waker =>
    cases hstep
    have := hpop q
    cases hev : t.mem.pop q with
    | mk g o => cases o <;> simp_all [accepted, delivered, removed, fifoOps]
  | remove q e =>
    cases hstep
    simpa [accepted, delivered, removed] using h.onQueue_remove q e ev
  | isEmpty q =>
    cases hstep
    simp [accepted, delivered, removed]
  | isQueued e =>
    cases hstep
    simp [accepted, delivered, removed]
  | get ctx q tmo now =>
    have hg : t.getting ctx = none := Option.isNone_iff_eq_none.mp hp
    simp only [callStep, hg, Option.some.injEq] at hstep
    simpa [accepted, removed] using hsettle ctx _ q (getEnter_pop t.mem q tmo now) hstep
  | getTurn ctx now waker =>
    obtain ⟨f, hg⟩ := Option.isSome_iff_exists.mp hp
    simp only [callStep, hg, Option.map_some, Option.some.injEq] at hstep
    simpa [accepted, removed] using hsettle ctx _ f.evq (getWait_pop t.mem f now) hstep

end Ledger

section Runs
variable [DecidableEq Ev] [DecidableEq Evq] [Fintype Ev]

omit [DecidableEq Ctx] in
theorem CallsRepresent.promise {s : Calls (Mem Ev Evq Wk) Ctx Evq}
    {t : Calls (Fifos Ev Evq) Ctx Evq} (h : CallsRepresent s t) {a : Call Ctx Ev Evq Wk}
    (hp : Promise memOps s a) : Promise fifoOps t a := by
  cases a with
  | eventqInit q =>
    simpa [Promise, memOps, fifoOps, bleNplEventqIsEmpty, h.mem.head_isNone q] using hp
  | eventInit ev func arg =>
    have hflag : (s.mem.event ev).queued = false := hp
    simpa [Promise, fifoOps] using h.mem.not_queued hflag
  | get ctx q tmo now => simpa [Promise, h.getting] using hp
  | getTurn ctx now waker => simpa [Promise, h.getting] using hp
  | _ => trivial

end Runs

end NimbleRs.Npl
