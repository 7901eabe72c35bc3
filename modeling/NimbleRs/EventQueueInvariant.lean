import NimbleRs.EventQueue
import Mathlib.Tactic

/-!
# Event queues as a family of FIFO lists

`Fifos` is what the event queues are for: each queue holds a list of events, an
event is on at most one of them, and events leave in the order in which they came.
`Represents` ties the intrusive cells to it.
-/
namespace NimbleRs.Npl
open PointerChain

structure Fifos (Ev Evq : Type*) where
  initialized : Evq → Bool
  items : Evq → List Ev

namespace Fifos

variable {Ev Evq : Type*}

def Queued (f : Fifos Ev Evq) (ev : Ev) : Prop := ∃ q, ev ∈ f.items q

def empty : Fifos Ev Evq := ⟨fun _ => false, fun _ => []⟩

variable [DecidableEq Evq]

def setItems (f : Fifos Ev Evq) (q : Evq) (l : List Ev) : Fifos Ev Evq :=
  { f with items := Function.update f.items q l }

@[simp] theorem setItems_items (f : Fifos Ev Evq) (q r : Evq) (l : List Ev) :
    (f.setItems q l).items r = if r = q then l else f.items r := by
  simp [setItems, Function.update_apply]

@[simp] theorem setItems_initialized (f : Fifos Ev Evq) (q : Evq) (l : List Ev) :
    (f.setItems q l).initialized = f.initialized := rfl

def init (f : Fifos Ev Evq) (q : Evq) : Fifos Ev Evq :=
  ⟨Function.update f.initialized q true, Function.update f.items q []⟩

open Classical in
/-- Appends, unless the event is on some queue already or `q` is not initialized. -/
noncomputable def put (f : Fifos Ev Evq) (q : Evq) (ev : Ev) : Fifos Ev Evq :=
  if f.Queued ev ∨ f.initialized q = false then f else f.setItems q (f.items q ++ [ev])

def pop (f : Fifos Ev Evq) (q : Evq) : Fifos Ev Evq × Option Ev :=
  match f.items q with
  | [] => (f, none)
  | ev :: l => (f.setItems q l, some ev)

def remove [DecidableEq Ev] (f : Fifos Ev Evq) (q : Evq) (ev : Ev) : Fifos Ev Evq :=
  f.setItems q ((f.items q).erase ev)

@[simp] theorem put_initialized (f : Fifos Ev Evq) (q : Evq) (ev : Ev) :
    (f.put q ev).initialized = f.initialized := by
  by_cases hrej : f.Queued ev ∨ f.initialized q = false <;> simp [put, hrej]

@[simp] theorem pop_initialized (f : Fifos Ev Evq) (q : Evq) :
    (f.pop q).1.initialized = f.initialized := by
  cases hitems : f.items q <;> simp [pop, hitems]

theorem mem_append_items {f : Fifos Ev Evq} {q r : Evq} {ev e : Ev} :
    e ∈ (f.setItems q (f.items q ++ [ev])).items r ↔ e ∈ f.items r ∨ (e = ev ∧ r = q) := by
  by_cases hr : r = q
  · subst hr
    simp
  · simp [hr]

theorem queued_append_items {f : Fifos Ev Evq} {q : Evq} {ev e : Ev} :
    (f.setItems q (f.items q ++ [ev])).Queued e ↔ f.Queued e ∨ e = ev := by
  unfold Queued
  simp only [mem_append_items, exists_or]
  simp

theorem mem_put {f : Fifos Ev Evq} {q r : Evq} {ev e : Ev} (h : e ∈ (f.put q ev).items r) :
    e ∈ f.items r ∨ (e = ev ∧ r = q ∧ ¬ f.Queued ev) := by
  by_cases hrej : f.Queued ev ∨ f.initialized q = false
  · simp only [put, hrej, if_true] at h
    exact .inl h
  · simp only [put, hrej, if_false] at h
    exact (mem_append_items.mp h).imp_right (fun he => ⟨he.1, he.2, fun hq => hrej (.inl hq)⟩)

theorem mem_pop {f : Fifos Ev Evq} {q r : Evq} {e : Ev} (h : e ∈ (f.pop q).1.items r) :
    e ∈ f.items r := by
  cases hitems : f.items q with
  | nil => simpa [pop, hitems] using h
  | cons a l =>
    by_cases hr : r = q
    · subst hr
      simp only [pop, hitems, setItems_items, if_true] at h
      simp [hitems, h]
    · simpa [pop, hitems, hr] using h

theorem popped_mem {f : Fifos Ev Evq} {q : Evq} {e : Ev} (h : (f.pop q).2 = some e) :
    e ∈ f.items q := by
  cases hitems : f.items q with
  | nil => simp [pop, hitems] at h
  | cons a l =>
    simp only [pop, hitems, Option.some.injEq] at h
    simp [h]

theorem mem_remove [DecidableEq Ev] {f : Fifos Ev Evq} {q r : Evq} {ev e : Ev}
    (h : e ∈ (f.remove q ev).items r) : e ∈ f.items r := by
  by_cases hr : r = q
  · subst hr
    simp only [remove, setItems_items, if_true] at h
    exact List.mem_of_mem_erase h
  · simpa [remove, hr] using h

theorem ne_of_mem_remove [DecidableEq Ev] {f : Fifos Ev Evq} {q : Evq} {ev e : Ev}
    (hnodup : (f.items q).Nodup) (h : e ∈ (f.remove q ev).items q) : e ≠ ev := by
  simp only [remove, setItems_items, if_true] at h
  exact (hnodup.mem_erase_iff.mp h).1

end Fifos

variable {Ev Evq Wk : Type*}

/-- The joint invariant of all queues: chains without cycles that end in their
tails, and a flag that is set on exactly the events of exactly one chain. -/
structure Represents (m : Mem Ev Evq Wk) (f : Fifos Ev Evq) : Prop where
  chain : ∀ q, Visits m.next (m.eventq q).head (f.items q)
  tail : ∀ q, (m.eventq q).tail = (f.items q).getLast?
  tag : ∀ q, (m.eventq q).initTag.isSome = f.initialized q
  disjoint : ∀ q r ev, ev ∈ f.items q → ev ∈ f.items r → q = r
  queued : ∀ ev, (m.event ev).queued = true ↔ f.Queued ev

theorem represents_zeroed : Represents (Mem.zeroed : Mem Ev Evq Wk) Fifos.empty where
  chain _ := rfl
  tail _ := rfl
  tag _ := rfl
  disjoint := by simp [Fifos.empty]
  queued := by simp [Mem.zeroed, Fifos.empty, Fifos.Queued]

namespace Represents

variable {m : Mem Ev Evq Wk} {f : Fifos Ev Evq}

theorem nodup (h : Represents m f) (q : Evq) : (f.items q).Nodup := visits_nodup (h.chain q)

theorem head_eq (h : Represents m f) (q : Evq) : (m.eventq q).head = (f.items q).head? :=
  visits_head (h.chain q)

theorem head_isNone (h : Represents m f) (q : Evq) :
    (m.eventq q).head.isNone = (f.items q).isEmpty := by
  rw [h.head_eq q]
  cases f.items q <;> rfl

/-- A queue that loses events and gains none stays empty. -/
theorem head_none_of_sub {m' : Mem Ev Evq Wk} {f' : Fifos Ev Evq} (h : Represents m f)
    (h' : Represents m' f') {q : Evq} (hsub : ∀ e ∈ f'.items q, e ∈ f.items q)
    (hhead : (m.eventq q).head = none) : (m'.eventq q).head = none := by
  have hnil : f.items q = [] := (visits_none_iff (h.chain q)).mp hhead
  refine (visits_none_iff (h'.chain q)).mpr (List.eq_nil_iff_forall_not_mem.mpr fun e he => ?_)
  simpa [hnil] using hsub e he

theorem not_queued (h : Represents m f) {ev : Ev} (hq : (m.event ev).queued = false) :
    ¬ f.Queued ev := by
  rw [← h.queued ev, hq]
  exact Bool.false_ne_true

theorem queued_eq_false_iff (h : Represents m f) {ev : Ev} :
    (m.event ev).queued = false ↔ ∀ q, ev ∉ f.items q := by
  rw [← Bool.not_eq_true, h.queued ev, Fifos.Queued, not_exists]

variable [DecidableEq Evq]

/-- A header with the same events on its queue; the waker slots are not part of the abstract
state. -/
theorem header (h : Represents m f) {q : Evq} {v : EventQueue Ev Evq Wk}
    (hhead : v.head = (m.eventq q).head) (htail : v.tail = (m.eventq q).tail) :
    Represents (m.setEventq q v)
      { f with initialized := Function.update f.initialized q v.initTag.isSome } where
  chain r := by
    by_cases hr : r = q
    · subst hr; simpa [hhead] using h.chain r
    · simpa [hr] using h.chain r
  tail r := by
    by_cases hr : r = q
    · subst hr; simpa [htail] using h.tail r
    · simpa [hr] using h.tail r
  tag r := by
    by_cases hr : r = q
    · simp [hr]
    · simpa [hr] using h.tag r
  disjoint := h.disjoint
  queued := by simpa [Fifos.Queued] using h.queued

theorem waker (h : Represents m f) (q : Evq) (w : Option Wk) :
    Represents (m.setEventq q { m.eventq q with waker := w }) f := by
  have hset := h.header (q := q) (v := { m.eventq q with waker := w }) rfl rfl
  have hsame : Function.update f.initialized q (m.eventq q).initTag.isSome = f.initialized := by
    rw [h.tag q, Function.update_eq_self]
  rw [hsame] at hset
  exact hset

/-- A queue that was empty is so with a fresh header. -/
theorem freshHeader (h : Represents m f) {q : Evq} (hempty : (m.eventq q).head = none)
    (tag : Option Evq) : Represents (m.setEventq q ⟨tag, none, none, none⟩)
      ⟨Function.update f.initialized q tag.isSome, Function.update f.items q []⟩ := by
  have hitems : f.items q = [] := (visits_none_iff (h.chain q)).mp hempty
  have htail : (m.eventq q).tail = none := by rw [h.tail q, hitems, List.getLast?_nil]
  have hsame : Function.update f.items q [] = f.items := by
    rw [← hitems, Function.update_eq_self]
  rw [hsame]
  exact h.header hempty.symm htail.symm

theorem eventqInit (h : Represents m f) {q : Evq} (hempty : (m.eventq q).head = none) :
    Represents (bleNplEventqInit m q) (f.init q) :=
  h.freshHeader hempty (some q)

/-- The first event of a queue that is emptied stays marked, and is on no queue. -/
theorem not_emptied (h : Represents m f) {q : Evq} {a : Ev} (ha : (m.eventq q).head = some a)
    {m' : Mem Ev Evq Wk} {initialized : Evq → Bool} (hevent : m'.event = m.event) :
    ¬ Represents m' ⟨initialized, Function.update f.items q []⟩ := by
  intro h'
  have hmem : a ∈ f.items q := by
    rw [h.head_eq q] at ha
    exact List.mem_of_mem_head? ha
  have hqueued : (m.event a).queued = true := (h.queued a).mpr ⟨q, hmem⟩
  rw [← hevent] at hqueued
  obtain ⟨r, hr⟩ := (h'.queued a).mp hqueued
  by_cases hrq : r = q
  · simp [hrq] at hr
  · have hr' : a ∈ f.items r := by simpa [hrq] using hr
    exact hrq (h.disjoint r q a hr' hmem)

variable [DecidableEq Ev]

omit [DecidableEq Evq] in
theorem eventInit (h : Represents m f) {ev : Ev} (hq : (m.event ev).queued = false)
    (func : Option ℕ) (arg : ℕ) : Represents (bleNplEventInit m ev func arg) f := by
  have hnot : ∀ q, ev ∉ f.items q := fun q hmem => h.not_queued hq ⟨q, hmem⟩
  constructor
  case chain =>
    intro q
    refine (h.chain q).congr (fun e he => ?_)
    have hne : e ≠ ev := fun heq => hnot q (heq ▸ he)
    simp [bleNplEventInit, hne]
  case tail => exact h.tail
  case tag => exact h.tag
  case disjoint => exact h.disjoint
  case queued =>
    intro e
    by_cases he : e = ev
    · simpa [bleNplEventInit, he] using h.not_queued hq
    · simpa [bleNplEventInit, he] using h.queued e

/-- The cells after an accepted put. -/
theorem put_cells {q : Evq} {ev : Ev} (hq : (m.event ev).queued = false)
    (htag : (m.eventq q).initTag.isSome = true) (htail : (m.eventq q).tail ≠ some ev) :
    ((bleNplEventqPut m q ev).1.eventq = Function.update m.eventq q
        ⟨(m.eventq q).initTag,
          if (m.eventq q).tail = none then some ev else (m.eventq q).head, some ev, none⟩) ∧
      (∀ e, (bleNplEventqPut m q ev).1.next e =
        if e = ev then none else if (m.eventq q).tail = some e then some ev else m.next e) ∧
      ∀ e, ((bleNplEventqPut m q ev).1.event e).queued =
        if e = ev then true else (m.event e).queued := by
  have hnone : (m.eventq q).initTag.isNone = false := by
    simpa [Option.isNone_eq_false_iff] using htag
  cases ht : (m.eventq q).tail with
  | none =>
    refine ⟨?_, ?_, ?_⟩
    · funext r
      by_cases hr : r = q
      · simp [bleNplEventqPut, hq, hnone, ht, hr]
      · simp [bleNplEventqPut, hq, hnone, ht, hr]
    · intro e
      by_cases he : e = ev <;> simp [bleNplEventqPut, hq, hnone, ht, he]
    · intro e
      by_cases he : e = ev <;> simp [bleNplEventqPut, hq, hnone, ht, he]
  | some t =>
    have hne : ev ≠ t := fun heq => htail (by rw [ht, heq])
    refine ⟨?_, ?_, ?_⟩
    · funext r
      by_cases hr : r = q
      · simp [bleNplEventqPut, hq, hnone, ht, hr]
      · simp [bleNplEventqPut, hq, hnone, ht, hr]
    · intro e
      by_cases he : e = ev
      · simp [bleNplEventqPut, hq, hnone, ht, he, hne]
      · by_cases het : e = t
        · simp [bleNplEventqPut, hq, hnone, ht, het, hne.symm]
        · simp [bleNplEventqPut, hq, hnone, ht, he, het, Ne.symm het]
    · intro e
      by_cases he : e = ev
      · simp [bleNplEventqPut, hq, hnone, ht, he, hne]
      · by_cases het : e = t
        · simp [bleNplEventqPut, hq, hnone, ht, het, hne.symm]
        · simp [bleNplEventqPut, hq, hnone, ht, he, het]

theorem put (h : Represents m f) (q : Evq) (ev : Ev) :
    Represents (bleNplEventqPut m q ev).1 (f.put q ev) := by
  by_cases hrej : f.Queued ev ∨ f.initialized q = false
  · have hguard : ((m.event ev).queued || (m.eventq q).initTag.isNone) = true := by
      rw [← h.queued ev, ← h.tag q] at hrej
      simpa [Option.isSome_eq_false_iff] using hrej
    simpa [bleNplEventqPut, Fifos.put, hguard, hrej] using h
  push Not at hrej
  obtain ⟨hnot, htag⟩ := hrej
  have hq : (m.event ev).queued = false := by simpa [← h.queued ev] using hnot
  have hmem : ∀ r, ev ∉ f.items r := fun r hr => hnot ⟨r, hr⟩
  have htail : (m.eventq q).tail ≠ some ev := by
    rw [h.tail q]
    exact fun ht => hmem q (List.mem_of_getLast? ht)
  obtain ⟨heventq, hnext, hqueued⟩ :=
    put_cells hq (by rw [h.tag q]; simpa using htag) htail
  have hput : f.put q ev = f.setItems q (f.items q ++ [ev]) := by
    rw [Fifos.put, if_neg]
    simpa [hnot] using htag
  rw [hput]
  constructor
  case chain =>
    intro r
    by_cases hr : r = q
    · subst hr
      have hchain : Visits m.next (m.eventq r).head (f.items r ++ []) := by simpa using h.chain r
      simp only [heventq, Function.update_self, Fifos.setItems_items, if_true]
      refine visits_link hchain ?_ ?_ (fun e he => ?_)
      · simp [h.tail r]
      · simp [hnext]
      · rw [hnext e, if_neg (fun heq => hmem r (by simpa [heq] using he)), h.tail r]
    · simp only [heventq, Function.update_of_ne hr, Fifos.setItems_items, if_neg hr]
      refine (h.chain r).congr (fun e he => ?_)
      have hne : e ≠ ev := fun heq => hmem r (heq ▸ he)
      rw [hnext e, if_neg hne, if_neg]
      rw [h.tail q]
      exact fun hl => hr (h.disjoint r q e he (List.mem_of_getLast? hl))
  case tail =>
    intro r
    by_cases hr : r = q
    · simp [heventq, hr]
    · simpa [heventq, hr] using h.tail r
  case tag =>
    intro r
    by_cases hr : r = q
    · simpa [heventq, hr] using h.tag q
    · simpa [heventq, hr] using h.tag r
  case disjoint =>
    intro r r' e he he'
    obtain hold | ⟨heq, hr⟩ := Fifos.mem_append_items.mp he
    · obtain hold' | ⟨heq', -⟩ := Fifos.mem_append_items.mp he'
      · exact h.disjoint r r' e hold hold'
      · exact absurd (heq' ▸ hold) (hmem r)
    · obtain hold' | ⟨-, hr'⟩ := Fifos.mem_append_items.mp he'
      · exact absurd (heq ▸ hold') (hmem r')
      · rw [hr, hr']
  case queued =>
    intro e
    rw [hqueued e, Fifos.queued_append_items, ← h.queued e]
    by_cases he : e = ev
    · simp [he]
    · simp [he]

/-- Taking one event off the queue it is on, whatever its position was. -/
theorem detach (h : Represents m f) {m' : Mem Ev Evq Wk} {q : Evq} (ev : Ev) {l : List Ev}
    (head' tail' : Option Ev) (hmem : ev ∈ f.items q)
    (hl : ∀ e, e ∈ l ↔ e ∈ f.items q ∧ e ≠ ev)
    (heventq : m'.eventq = Function.update m.eventq q
      { m.eventq q with head := head', tail := tail' })
    (hqueued : ∀ e, (m'.event e).queued = if e = ev then false else (m.event e).queued)
    (hchain : Visits m'.next head' l) (htail : tail' = l.getLast?)
    (hother : ∀ r, r ≠ q → ∀ e ∈ f.items r, m'.next e = m.next e) :
    Represents m' (f.setItems q l) where
  chain r := by
    by_cases hr : r = q
    · subst hr; simpa [heventq] using hchain
    · simpa [heventq, hr] using (h.chain r).congr (hother r hr)
  tail r := by
    by_cases hr : r = q
    · simp [heventq, hr, htail]
    · simpa [heventq, hr] using h.tail r
  tag r := by
    by_cases hr : r = q
    · simpa [heventq, hr] using h.tag q
    · simpa [heventq, hr] using h.tag r
  disjoint r r' e he he' := by
    have hsub : ∀ r, e ∈ (f.setItems q l).items r → e ∈ f.items r := by
      intro r hr
      by_cases hrq : r = q
      · subst hrq
        exact ((hl e).mp (by simpa using hr)).1
      · simpa [hrq] using hr
    exact h.disjoint r r' e (hsub r he) (hsub r' he')
  queued e := by
    rw [hqueued e]
    by_cases he : e = ev
    · subst he
      have hgone : ¬ (f.setItems q l).Queued e := by
        rintro ⟨r, hr⟩
        by_cases hrq : r = q
        · subst hrq
          exact ((hl e).mp (by simpa using hr)).2 rfl
        · exact hrq (h.disjoint r q e (by simpa [hrq] using hr) hmem)
      simpa using hgone
    · rw [if_neg he, h.queued e]
      refine exists_congr (fun r => ?_)
      by_cases hr : r = q
      · subst hr; simp [hl, he]
      · simp [hr]

theorem tryPop (h : Represents m f) (q : Evq) :
    Represents (eventqTryPop m q).1 (f.pop q).1 ∧ (eventqTryPop m q).2 = (f.pop q).2 := by
  cases hitems : f.items q with
  | nil =>
    have hhead : (m.eventq q).head = none := by simp [h.head_eq q, hitems]
    simpa [eventqTryPop, Fifos.pop, hhead, hitems] using h
  | cons ev l =>
    have hhead : (m.eventq q).head = some ev := by simp [h.head_eq q, hitems]
    have hchain : Visits m.next (some ev) (ev :: l) := by
      have := h.chain q
      rwa [hhead, hitems] at this
    have hnodup : (ev :: l).Nodup := visits_nodup hchain
    have hnotl : ev ∉ l := (List.nodup_cons.mp hnodup).1
    have hnext : m.next ev = l.head? := visits_head hchain.2
    have hpop : f.pop q = (f.setItems q l, some ev) := by simp [Fifos.pop, hitems]
    rw [hpop]
    refine ⟨h.detach ev (m.next ev) l.getLast? (by simp [hitems]) ?_ ?_ ?_ ?_ rfl ?_, ?_⟩
    · intro e
      rw [hitems, List.mem_cons]
      constructor
      · exact fun he => ⟨.inr he, fun heq => hnotl (heq ▸ he)⟩
      · exact fun he => he.1.resolve_left he.2
    · funext r
      have ht := h.tail q
      rw [hitems] at ht
      cases l with
      | nil =>
        by_cases hr : r = q <;> simp [eventqTryPop, hhead, hnext, hr]
      | cons b l =>
        by_cases hr : r = q <;> simp_all [eventqTryPop, List.getLast?_cons]
    · intro e
      by_cases he : e = ev <;> cases l <;> simp [eventqTryPop, hhead, hnext, he]
    · refine hchain.2.congr (fun e he => ?_)
      have hne : e ≠ ev := fun heq => hnotl (heq ▸ he)
      cases l <;> simp [eventqTryPop, hhead, hnext, hne]
    · intro r hr e he
      have hne : e ≠ ev := fun heq => hr (h.disjoint r q e he (by simp [hitems, heq]))
      cases l <;> simp [eventqTryPop, hhead, hnext, hne]
    · simp [eventqTryPop, hhead]

/-- The cells after a removal that found `ev` behind `prev`. -/
theorem removeFound_cells (q : Evq) {ev : Ev} {prev : Option Ev} (hprev : prev ≠ some ev) :
    ((removeFound m q prev ev).eventq = Function.update m.eventq q
        { m.eventq q with
          head := if prev = none then m.next ev else (m.eventq q).head
          tail := if (m.eventq q).tail = some ev then prev else (m.eventq q).tail }) ∧
      (∀ e, (removeFound m q prev ev).next e =
        if e = ev then none else if prev = some e then m.next ev else m.next e) ∧
      ∀ e, ((removeFound m q prev ev).event e).queued =
        if e = ev then false else (m.event e).queued := by
  refine ⟨?_, ?_, ?_⟩
  · funext r
    cases prev <;> by_cases hr : r = q <;> by_cases ht : (m.eventq q).tail = some ev <;>
      simp [removeFound, hr, ht]
  · intro e
    cases prev with
    | none =>
      by_cases he : e = ev <;> by_cases ht : (m.eventq q).tail = some ev <;>
        simp [removeFound, he, ht]
    | some b =>
      have hb : ev ≠ b := fun heq => hprev (by rw [heq])
      by_cases he : e = ev <;> by_cases heb : b = e <;>
        by_cases ht : (m.eventq q).tail = some ev <;> simp_all [removeFound, eq_comm]
  · intro e
    cases prev with
    | none =>
      by_cases he : e = ev <;> by_cases ht : (m.eventq q).tail = some ev <;>
        simp [removeFound, he, ht]
    | some b =>
      by_cases he : e = ev <;> by_cases heb : e = b <;>
        by_cases ht : (m.eventq q).tail = some ev <;> simp_all [removeFound]

variable [Fintype Ev]

theorem remove (h : Represents m f) (q : Evq) (ev : Ev) :
    ∃ m', bleNplEventqRemove m q ev = some m' ∧ Represents m' (f.remove q ev) := by
  by_cases hmem : ev ∈ f.items q
  · have hq : (m.event ev).queued = true := (h.queued ev).mpr ⟨q, hmem⟩
    obtain ⟨l₁, l₂, hitems⟩ := List.append_of_mem hmem
    have hchain := h.chain q
    rw [hitems] at hchain
    have hnodup := visits_nodup hchain
    have hnot : ev ∉ l₁ ++ l₂ := (List.nodup_cons.mp (List.nodup_middle.mp hnodup)).1
    have hnot₁ : ev ∉ l₁ := fun he => hnot (List.mem_append_left l₂ he)
    have hprev : l₁.getLast? ≠ some ev := fun hl => hnot₁ (List.mem_of_getLast? hl)
    obtain ⟨heventq, hnext, hqueued⟩ := removeFound_cells (m := m) q hprev
    have herase : (f.items q).erase ev = l₁ ++ l₂ := by
      rw [hitems, List.erase_append_right _ hnot₁, List.erase_cons_head]
    have htail := h.tail q
    rw [hitems] at htail
    refine ⟨_, by simp [bleNplEventqRemove, hq, walk_to_mem hchain]; rfl, ?_⟩
    rw [Fifos.remove, herase]
    refine h.detach ev _ _ hmem ?_ heventq hqueued ?_ ?_ ?_
    · intro e
      rw [← herase, (h.nodup q).mem_erase_iff, and_comm]
    · refine visits_unlink hchain (by simp) (fun e he => ?_)
      have hne : e ≠ ev := fun heq => hnot (heq ▸ he)
      rw [hnext e, if_neg hne]
    · rw [htail]
      cases hl : l₂.getLast? with
      | none => simp [List.getLast?_eq_none_iff.mp hl]
      | some b =>
        have hmem₂ : b ∈ l₁ ++ l₂ := List.mem_append_right l₁ (List.mem_of_getLast? hl)
        have hb : b ≠ ev := fun heq => hnot (heq ▸ hmem₂)
        simp [List.getLast?_append, List.getLast?_cons, hl, hb]
    · intro r hr e he
      have hne : e ≠ ev := fun heq => hr (h.disjoint r q e he (heq ▸ hmem))
      rw [hnext e, if_neg hne, if_neg]
      intro hl
      exact hr (h.disjoint r q e he (by simp [hitems, List.mem_of_getLast? hl]))
  · have herase : f.remove q ev = f := by
      simp [Fifos.remove, Fifos.setItems, List.erase_of_not_mem hmem]
    rw [herase]
    refine ⟨m, ?_, h⟩
    by_cases hq : (m.event ev).queued = true
    · simp [bleNplEventqRemove, hq, walk_to_not_mem (h.chain q) hmem]
    · simp [bleNplEventqRemove, hq]

end Represents

end NimbleRs.Npl
