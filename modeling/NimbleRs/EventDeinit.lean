import NimbleRs.EventQueueInvariant
import NimbleRs.TransitionSystem
import Mathlib.Tactic

/-!
# Events that are deinitialized

The event calls with `ble_npl_event_deinit` among them, on the cells and on FIFO lists from
which a deinitialized event is taken off. The two are run side by side, and what each of
them pops is kept.
-/
namespace NimbleRs.Npl
open PointerChain TransitionSystem

variable {Ev Evq Wk : Type*} [DecidableEq Ev] [DecidableEq Evq]

/-- What deinitializing an event is to come to. -/
def Fifos.detach (f : Fifos Ev Evq) (ev : Ev) : Fifos Ev Evq :=
  { f with items := fun q => (f.items q).erase ev }

inductive EventCall (Ev Evq : Type*)
  | eventqInit (q : Evq)
  | init (ev : Ev) (func : Option ℕ) (arg : ℕ)
  | deinit (ev : Ev)
  | put (q : Evq) (ev : Ev)
  | pop (q : Evq)
  | remove (q : Evq) (ev : Ev)

/-- Cells and lists side by side, with the events that each of them has delivered. -/
structure Twin (Ev Evq Wk : Type*) where
  mem : Mem Ev Evq Wk
  fifos : Fifos Ev Evq
  delivered : List Ev
  expected : List Ev

def Twin.start : Twin Ev Evq Wk := ⟨Mem.zeroed, Fifos.empty, [], []⟩

noncomputable def twinStep [Fintype Ev] (s : Twin Ev Evq Wk) :
    EventCall Ev Evq → Option (Twin Ev Evq Wk)
  | .eventqInit q =>
    some { s with mem := bleNplEventqInit s.mem q, fifos := s.fifos.init q }
  | .init ev func arg => some { s with mem := bleNplEventInit s.mem ev func arg }
  | .deinit ev => some { s with mem := bleNplEventDeinit s.mem ev, fifos := s.fifos.detach ev }
  | .put q ev => some { s with mem := (bleNplEventqPut s.mem q ev).1, fifos := s.fifos.put q ev }
  | .pop q =>
    let r := eventqTryPop s.mem q
    let t := s.fifos.pop q
    some ⟨r.1, t.1, s.delivered ++ r.2.toList, s.expected ++ t.2.toList⟩
  | .remove q ev => (bleNplEventqRemove s.mem q ev).map fun m =>
    { s with mem := m, fifos := s.fifos.remove q ev }

/-- No queue has a cycle, each holds exactly the events that it is to hold, and what has
been delivered was to be delivered. -/
structure Twin.Agrees (s : Twin Ev Evq Wk) : Prop where
  represents : Represents s.mem s.fifos
  delivered : s.delivered = s.expected

/-- Queues are initialized while they are empty, and events are initialized and
deinitialized while they are not queued. -/
def Twin.LeavesLinks (s : Twin Ev Evq Wk) : EventCall Ev Evq → Prop
  | .eventqInit q => (s.mem.eventq q).head = none
  | .init ev _ _ | .deinit ev => (s.mem.event ev).queued = false
  | _ => True

/-- The events that a queue delivers when it is popped until it is empty. -/
def drain (q : Evq) : ℕ → Mem Ev Evq Wk → List Ev
  | 0, _ => []
  | fuel + 1, m =>
    match eventqTryPop m q with
    | (_, none) => []
    | (m', some ev) => ev :: drain q fuel m'

section Detach
variable {m : Mem Ev Evq Wk} {f : Fifos Ev Evq}

omit [DecidableEq Evq] in
theorem Fifos.detach_of_not_queued {ev : Ev} (h : ¬ f.Queued ev) : f.detach ev = f := by
  have hitems : (fun q => (f.items q).erase ev) = f.items := by
    funext q
    exact List.erase_of_not_mem (fun hmem => h ⟨q, hmem⟩)
  unfold Fifos.detach
  rw [hitems]

omit [DecidableEq Evq] in
@[simp] theorem bleNplEventDeinit_next (m : Mem Ev Evq Wk) (ev : Ev) :
    (bleNplEventDeinit m ev).next = m.next := by
  funext e
  by_cases he : e = ev
  · subst he
    simp [bleNplEventDeinit, Mem.next]
  · simp [bleNplEventDeinit, Mem.next, he]

omit [DecidableEq Evq] in
theorem Represents.eventDeinit (h : Represents m f) {ev : Ev}
    (hq : (m.event ev).queued = false) : Represents (bleNplEventDeinit m ev) (f.detach ev) := by
  rw [Fifos.detach_of_not_queued (h.not_queued hq)]
  constructor
  case chain =>
    intro q
    rw [bleNplEventDeinit_next]
    exact h.chain q
  case tail => exact h.tail
  case tag => exact h.tag
  case disjoint => exact h.disjoint
  case queued =>
    intro e
    by_cases he : e = ev
    · simpa [bleNplEventDeinit, he] using h.not_queued hq
    · simpa [bleNplEventDeinit, he] using h.queued e

omit [DecidableEq Evq] in
/-- An event that is on a queue stays linked there. -/
theorem Represents.not_detached (h : Represents m f) {ev : Ev}
    (hq : (m.event ev).queued = true) : ¬ Represents (bleNplEventDeinit m ev) (f.detach ev) := by
  intro h'
  obtain ⟨q, hmem⟩ := (h.queued ev).mp hq
  have hchain := h'.chain q
  rw [bleNplEventDeinit_next] at hchain
  have hitems : f.items q = (f.items q).erase ev := visits_unique (h.chain q) hchain
  rw [hitems] at hmem
  exact (h.nodup q).not_mem_erase hmem

/-- Popping follows the links. Induction on the chain: a pop clears the link of the event
that it takes, which the rest of the chain does not need. -/
theorem drain_of_visits {q : Evq} {l : List Ev} (h : Visits m.next (m.eventq q).head l)
    {fuel : ℕ} (hfuel : l.length < fuel) : drain q fuel m = l := by
  induction l generalizing m fuel with
  | nil =>
    obtain ⟨fuel, rfl⟩ : ∃ k, fuel = k + 1 := ⟨fuel - 1, by simp at hfuel; omega⟩
    have hhead : (m.eventq q).head = none := visits_head h
    simp [drain, eventqTryPop, hhead]
  | cons a l ih =>
    obtain ⟨fuel, rfl⟩ : ∃ k, fuel = k + 1 := ⟨fuel - 1, by omega⟩
    have hhead : (m.eventq q).head = some a := visits_head h
    have hnot : a ∉ l := (List.nodup_cons.mp (visits_nodup h)).1
    have htail : Visits m.next (m.next a) l := h.2
    obtain ⟨m', hpop, hnext, hhead'⟩ : ∃ m', eventqTryPop m q = (m', some a) ∧
        (∀ e, e ≠ a → m'.next e = m.next e) ∧ (m'.eventq q).head = m.next a := by
      refine ⟨_, by simp only [eventqTryPop, hhead]; rfl, fun e he => ?_, ?_⟩
      · cases m.next a <;> simp [he]
      · cases m.next a <;> simp
    have hrest : Visits m'.next (m'.eventq q).head l := by
      rw [hhead']
      exact htail.congr (fun e he => hnext e (fun heq => hnot (heq ▸ he)))
    simp only [drain, hpop]
    rw [ih hrest (by simpa using hfuel)]

variable [Fintype Ev]

theorem Represents.drain (h : Represents m f) (q : Evq) :
    Npl.drain q (Fintype.card Ev + 1) m = f.items q :=
  drain_of_visits (h.chain q) (Nat.lt_succ_of_le (visits_length_le (h.chain q)))

/-- What a queue delivers after the event was deinitialized is what it would have
delivered, the event itself included. -/
theorem Represents.drain_eventDeinit (h : Represents m f) (ev : Ev) (q : Evq) :
    Npl.drain q (Fintype.card Ev + 1) (bleNplEventDeinit m ev) = f.items q := by
  have hchain : Visits (bleNplEventDeinit m ev).next ((bleNplEventDeinit m ev).eventq q).head
      (f.items q) := by
    rw [bleNplEventDeinit_next]
    exact h.chain q
  exact drain_of_visits hchain (Nat.lt_succ_of_le (visits_length_le hchain))

/-- Exactly an event that is not queued is taken off all queues. -/
theorem Represents.drain_eventDeinit_iff (h : Represents m f) (ev : Ev) :
    (∀ q, Npl.drain q (Fintype.card Ev + 1) (bleNplEventDeinit m ev) =
      (Npl.drain q (Fintype.card Ev + 1) m).erase ev) ↔ (m.event ev).queued = false := by
  simp only [h.drain, h.drain_eventDeinit]
  constructor
  · intro hall
    by_contra hq
    obtain ⟨q, hmem⟩ := (h.queued ev).mp (by simpa using hq)
    rw [hall q] at hmem
    exact (h.nodup q).not_mem_erase hmem
  · intro hq q
    exact (List.erase_of_not_mem fun hmem => h.not_queued hq ⟨q, hmem⟩).symm

end Detach

section Twin
variable [Fintype Ev] {s s' : Twin Ev Evq Wk}

omit [DecidableEq Ev] [DecidableEq Evq] [Fintype Ev] in
theorem Twin.Agrees.start : (Twin.start : Twin Ev Evq Wk).Agrees := ⟨represents_zeroed, rfl⟩

theorem Twin.Agrees.step (h : s.Agrees) {c : EventCall Ev Evq} (hlinks : s.LeavesLinks c)
    (hstep : twinStep s c = some s') : s'.Agrees := by
  cases c with
  | eventqInit q =>
    obtain rfl := Option.some.inj hstep
    exact ⟨h.represents.eventqInit hlinks, h.delivered⟩
  | init ev func arg =>
    obtain rfl := Option.some.inj hstep
    exact ⟨h.represents.eventInit hlinks func arg, h.delivered⟩
  | deinit ev =>
    obtain rfl := Option.some.inj hstep
    exact ⟨h.represents.eventDeinit hlinks, h.delivered⟩
  | put q ev =>
    obtain rfl := Option.some.inj hstep
    exact ⟨h.represents.put q ev, h.delivered⟩
  | pop q =>
    obtain rfl := Option.some.inj hstep
    obtain ⟨hpop, hev⟩ := h.represents.tryPop q
    refine ⟨hpop, ?_⟩
    show s.delivered ++ _ = s.expected ++ _
    rw [h.delivered, hev]
  | remove q ev =>
    obtain ⟨m, hm, hremove⟩ := h.represents.remove q ev
    simp only [twinStep, hm, Option.map_some, Option.some.injEq] at hstep
    obtain rfl := hstep
    exact ⟨hremove, h.delivered⟩

/-- A call on an event that is still linked loses the agreement at once. -/
theorem Twin.Agrees.not_step (h : s.Agrees) {c : EventCall Ev Evq} (hlinks : ¬ s.LeavesLinks c)
    (hstep : twinStep s c = some s') : ¬ s'.Agrees := by
  intro h'
  cases c with
  | eventqInit q =>
    obtain rfl := Option.some.inj hstep
    obtain ⟨a, ha⟩ := Option.ne_none_iff_exists'.mp hlinks
    exact absurd h'.represents (h.represents.not_emptied ha rfl)
  | init ev func arg =>
    obtain rfl := Option.some.inj hstep
    have hqueued : s.fifos.Queued ev := (h.represents.queued ev).mp (by
      simpa [Twin.LeavesLinks] using hlinks)
    have hflag := (h'.represents.queued ev).mpr hqueued
    simp [bleNplEventInit] at hflag
  | deinit ev =>
    obtain rfl := Option.some.inj hstep
    have hqueued : (s.mem.event ev).queued = true := by simpa [Twin.LeavesLinks] using hlinks
    exact h.represents.not_detached hqueued h'.represents
  | _ => exact hlinks trivial

end Twin

/-- A run delivers what it is to deliver, and no queue loses an event, holds one twice or
has a cycle, exactly when events are deinitialized, like they are initialized, while they
are not queued; and it is exactly then that a deinitialized event is not delivered. -/
theorem event_deinit_iff [Fintype Ev] (calls : List (EventCall Ev Evq)) :
    (Always twinStep Twin.Agrees (Twin.start : Twin Ev Evq Wk) calls ↔
      Meets twinStep Twin.LeavesLinks (Twin.start : Twin Ev Evq Wk) calls) ∧
    ∀ (m : Mem Ev Evq Wk) (f : Fifos Ev Evq), Represents m f → ∀ ev,
      (∀ q, drain q (Fintype.card Ev + 1) (bleNplEventDeinit m ev) =
        (drain q (Fintype.card Ev + 1) m).erase ev) ↔ (m.event ev).queued = false := by
  constructor
  · exact always_iff_meets (I := Twin.Agrees) (fun s c s' h hlinks hstep => h.step hlinks hstep)
      (fun s h => h) (fun s c s' h hstep hlinks => h.not_step hlinks hstep) Twin.Agrees.start
  · exact fun m f h => h.drain_eventDeinit_iff

/-- An event that is deinitialized while it is queued is delivered all the same, and after
another put it is linked to itself and is delivered twice. -/
theorem deinit_leaves_event_linked :
    let m : Mem (Fin 2) (Fin 1) (Fin 1) := (bleNplEventqPut (bleNplEventqInit Mem.zeroed 0) 0 1).1
    let again := (bleNplEventqPut (bleNplEventDeinit m 1) 0 1).1
    drain 0 3 (bleNplEventDeinit m 1) ≠ (drain 0 3 m).erase 1 ∧
      again.next 1 = some 1 ∧ drain 0 3 again = [1, 1] := by
  decide

end NimbleRs.Npl
