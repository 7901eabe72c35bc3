import NimbleRs.CalloutHistory
import Mathlib.Tactic

/-!
# Expiries leave in the order of the timer list

A callout that is left alone goes one way: from the timer list to the back of its
queue, and from the front of the queue to the context that runs it. What the others
do on the timer list and on the queue does not change the order of those that wait. The
histories are those of whole calls in a single context.
-/
namespace NimbleRs.Npl
open PointerChain TransitionSystem

variable {Co Ev Evq Wk : Type*} [DecidableEq Co] [DecidableEq Ev] [DecidableEq Evq]

/-- The callout whose event this is, if it is one of `kept`. -/
def keptCallout (kept : Finset Co) : Co ⊕ Ev → Option Co
  | .inl co => if co ∈ kept then some co else none
  | .inr _ => none

/-- The expiries of `kept` that are still to come, in order: first the queued ones. -/
def expiries (kept : Finset Co) (items : List (Co ⊕ Ev)) (armed : List Co) : List Co :=
  items.filterMap (keptCallout kept) ++ armed.filter (· ∈ kept)

section Lists
variable [Fintype Co] [Fintype Ev]

def timersList (n : State Co Ev Evq Wk) : List Co :=
  collect n.next (Fintype.card Co) n.timers.head

def queuedList (m : Mem (Co ⊕ Ev) Evq Wk) (q : Evq) : List (Co ⊕ Ev) :=
  collect m.next (Fintype.card (Co ⊕ Ev)) (m.eventq q).head

def pending (kept : Finset Co) (q : Evq) (s : Serviced Co Ev Evq Wk) : List Co :=
  expiries kept (queuedList s.npl.mem q) (timersList s.npl)

/-- A call and the event that it returns. -/
def servicePops (s : Serviced Co Ev Evq Wk) (a : ServiceCall Co Evq) :
    Option (Serviced Co Ev Evq Wk × Option (Co ⊕ Ev)) :=
  (serviceStep s a).map fun t => (t, match a with
    | .pop q => (eventqTryPop s.npl.mem q).2
    | _ => none)

theorem silent_servicePops :
    (silent servicePops : Serviced Co Ev Evq Wk → ServiceCall Co Evq → _) = serviceStep := by
  funext s a
  simp [silent, servicePops, Function.comp_def]

end Lists

/-- The call is not about one of `kept`. -/
def ServiceCall.Spares (kept : Finset Co) : ServiceCall Co Evq → Prop
  | .init co _ _ _ => co ∉ kept
  | .reset co _ => co ∉ kept
  | .stop co => co ∉ kept
  | _ => True

instance decidableSpares (kept : Finset Co) :
    (a : ServiceCall Co Evq) → Decidable (a.Spares kept)
  | .init co _ _ _ => inferInstanceAs (Decidable (co ∉ kept))
  | .reset co _ => inferInstanceAs (Decidable (co ∉ kept))
  | .stop co => inferInstanceAs (Decidable (co ∉ kept))
  | .fireTurn => .isTrue trivial
  | .pop _ => .isTrue trivial
  | .advance _ => .isTrue trivial

omit [DecidableEq Co] [DecidableEq Evq] in
theorem ServiceCall.Spares.mono {kept kept' : Finset Co} {a : ServiceCall Co Evq}
    (h : a.Spares kept) (hsub : kept' ⊆ kept) : a.Spares kept' := by
  cases a with
  | init co => exact fun hco => h (hsub hco)
  | reset co => exact fun hco => h (hsub hco)
  | stop co => exact fun hco => h (hsub hco)
  | _ => trivial

def served (kept : Finset Co) (popped : Option (Co ⊕ Ev)) : List Co :=
  (popped.bind (keptCallout kept)).toList

omit [DecidableEq Ev] in
@[simp] theorem keptCallout_eventOf (kept : Finset Co) (co : Co) :
    keptCallout kept (eventOf co : Co ⊕ Ev) = if co ∈ kept then some co else none := rfl

omit [DecidableEq Ev] in
theorem eq_eventOf_of_keptCallout {kept : Finset Co} {e : Co ⊕ Ev} {co : Co}
    (h : co ∈ keptCallout kept e) : e = eventOf co := by
  cases e with
  | inl c =>
    simp only [keptCallout, Option.mem_def, Option.ite_none_right_eq_some,
      Option.some.injEq] at h
    exact congrArg Sum.inl h.2
  | inr e => simp [keptCallout] at h

omit [DecidableEq Ev] in
theorem keptCallout_eq_none {kept : Finset Co} {e : Co ⊕ Ev} :
    keptCallout kept e = none ↔ ∀ co ∈ kept, e ≠ eventOf co := by
  cases e with
  | inl c =>
    simp only [keptCallout, ite_eq_right_iff, reduceCtorEq, imp_false]
    exact ⟨fun hc co hco he => hc (Sum.inl.inj he ▸ hco), fun h hc => h c hc rfl⟩
  | inr e => simp [keptCallout, eventOf]

/-- Erasing what a filter drops. -/
theorem filterMap_erase_of_none {α β : Type*} [DecidableEq α] {g : α → Option β} {a : α}
    (ha : g a = none) (l : List α) : (l.erase a).filterMap g = l.filterMap g := by
  induction l with
  | nil => rfl
  | cons b l ih =>
    by_cases hb : b = a
    · subst hb
      rw [List.erase_cons_head, List.filterMap_cons_none ha]
    · rw [List.erase_cons_tail (by simpa using hb), List.filterMap_cons, List.filterMap_cons, ih]

omit [DecidableEq Co] in
theorem TimerQueue.Before.asymm {t : TimerQueue Co} {a b : Co} (hab : t.Before a b) :
    ¬ t.Before b a := by
  rintro ⟨y, x, hy, hx, hba⟩
  obtain ⟨u, v, hu, hv, hlt⟩ := hab
  obtain rfl : x = u := Option.some.inj (hx.symm.trans hu)
  obtain rfl : y = v := Option.some.inj (hy.symm.trans hv)
  obtain hlt | ⟨heq, hlt⟩ := hlt
  · exact hba.elim (lt_asymm hlt) (fun h => hlt.ne' h.1)
  · exact hba.elim (fun h => h.ne' heq) (fun h => lt_asymm hlt h.2)

omit [DecidableEq Ev] [DecidableEq Evq] in
/-- The order of the callouts that nothing rearms does not depend on the others: both
lists are sorted, and have the same of them. -/
theorem filter_eq_of_armed {n n' : State Co Ev Evq Wk} {l l' : List Co} {t t' : TimerQueue Co}
    (h : TimersRepresent n l t) (h' : TimersRepresent n' l' t') {kept : Finset Co}
    (hkept : ∀ co ∈ kept, t'.armed co = t.armed co) :
    l'.filter (· ∈ kept) = l.filter (· ∈ kept) := by
  have hmem : ∀ co, co ∈ l'.filter (· ∈ kept) ↔ co ∈ l.filter (· ∈ kept) := by
    intro co
    simp only [List.mem_filter, decide_eq_true_eq]
    refine and_congr_left (fun hco => ?_)
    rw [h'.members co, h.members co, hkept co hco]
  have hperm : (l'.filter (· ∈ kept)).Perm (l.filter (· ∈ kept)) :=
    (List.perm_ext_iff_of_nodup (h'.nodup.filter _) (h.nodup.filter _)).mpr hmem
  have horder : (l.filter (· ∈ kept)).Pairwise t'.Before := by
    refine (h.order.filter _).imp_of_mem (fun {a b} ha hb hab => ?_)
    simp only [List.mem_filter, decide_eq_true_eq] at ha hb
    exact hab.congr (hkept a ha.2) (hkept b hb.2)
  refine hperm.eq_of_pairwise (fun a b _ _ hab hba => ?_) (h'.order.filter _) horder
  exact absurd hba hab.asymm

namespace Fifos

variable {Ev Evq : Type*} [DecidableEq Evq] {f : Fifos Ev Evq}

theorem put_of_not_queued {q : Evq} {ev : Ev} (hev : ¬ f.Queued ev)
    (hq : f.initialized q = true) : f.put q ev = f.setItems q (f.items q ++ [ev]) := by
  simp [put, hev, hq]

theorem put_items (f : Fifos Ev Evq) (r q : Evq) (ev : Ev) :
    (f.put r ev).items q = f.items q ∨ (f.put r ev).items q = f.items q ++ [ev] := by
  by_cases hrej : f.Queued ev ∨ f.initialized r = false
  · simp [put, hrej]
  · by_cases hqr : q = r
    · simp [put, hrej, hqr]
    · simp [put, hrej, hqr]

theorem pop_items_of_ne {q r : Evq} (hqr : q ≠ r) : (f.pop r).1.items q = f.items q := by
  cases hitems : f.items r <;> simp [pop, hitems, hqr]

/-- A put is not seen through a filter that drops the event. -/
theorem filterMap_put {β : Type*} {g : Ev → Option β} {ev : Ev} (hev : g ev = none)
    (r q : Evq) : ((f.put r ev).items q).filterMap g = (f.items q).filterMap g := by
  obtain hsame | hput := f.put_items r q ev
  · rw [hsame]
  · simp [hput, hev]

end Fifos

/-- The timer list and the queues are what `l`, `t` and `f` say, and a queued event of a
callout is on the queue that the callout is bound to. -/
structure Tracks (n : State Co Ev Evq Wk) (l : List Co) (t : TimerQueue Co)
    (f : Fifos (Co ⊕ Ev) Evq) : Prop where
  timers : TimersRepresent n l t
  eventqs : Represents n.mem f
  bound : ∀ co r, eventOf co ∈ f.items r → (n.callout co).evq = some r

/-- What a call does to the timer list, the armings and the queues, and what it pops. -/
inductive Moves (s : Serviced Co Ev Evq Wk) (l : List Co) (t : TimerQueue Co)
    (f : Fifos (Co ⊕ Ev) Evq) : ServiceCall Co Evq → Option (Co ⊕ Ev) → List Co →
      TimerQueue Co → Fifos (Co ⊕ Ev) Evq → Prop
  | init (co : Co) (evq : Option Evq) (func : Option ℕ) (arg : ℕ) :
    Moves s l t f (.init co evq func arg) none l t f
  | reset (co : Co) (ticks : ℕ) (l' : List Co) :
    Moves s l t f (.reset co ticks) none l' (t.reset co (s.now + ticks)) f
  | stop (co : Co) {f' : Fifos (Co ⊕ Ev) Evq}
    (hf : f' = f ∨ ∃ r, f' = f.remove r (eventOf co)) :
    Moves s l t f (.stop co) none (l.erase co) (t.stop co) f'
  | idle (hlate : ∀ c ∈ l, ∀ x, t.armed c = some x → s.now < x.1) :
    Moves s l t f .fireTurn none l t f
  | fire {co : Co} {l' : List Co} {f' : Fifos (Co ⊕ Ev) Evq} (hl : l = co :: l')
    (hf : (s.npl.callout co).evq = none ∧ f' = f ∨
      ∃ r, (s.npl.callout co).evq = some r ∧ f' = f.put r (eventOf co)) :
    Moves s l t f .fireTurn none l' (t.stop co) f'
  | pop (r : Evq) : Moves s l t f (.pop r) (f.pop r).2 l t (f.pop r).1
  | advance (ms : ℕ) : Moves s l t f (.advance ms) none l t f

namespace Tracks

variable {s : Serviced Co Ev Evq Wk} {l : List Co} {t : TimerQueue Co}
  {f : Fifos (Co ⊕ Ev) Evq}

omit [DecidableEq Co] [DecidableEq Ev] [DecidableEq Evq] in
/-- No event gets on a queue but that of a callout, on its own queue. -/
theorem of_frame {n n' : State Co Ev Evq Wk} (h : Tracks n l t f) {l' : List Co}
    {t' : TimerQueue Co} {f' : Fifos (Co ⊕ Ev) Evq} (hl' : TimersRepresent n' l' t')
    (hf' : Represents n'.mem f') (hevq : ∀ c, (n'.callout c).evq = (n.callout c).evq)
    (hitems : ∀ r c, eventOf c ∈ f'.items r →
      eventOf c ∈ f.items r ∨ (n.callout c).evq = some r) : Tracks n' l' t' f' :=
  ⟨hl', hf', fun c r hc => (hevq c).trans ((hitems r c hc).elim (h.bound c r) id)⟩

variable [Fintype Co] [Fintype Ev]

omit [DecidableEq Evq] [Fintype Co] [Fintype Ev] in
theorem init (h : Tracks s.npl l t f) {co : Co} (hact : (s.npl.callout co).active = false)
    (hq : bleNplEventIsQueued s.npl.mem (eventOf co) = false) (evq : Option Evq)
    (func : Option ℕ) (arg : ℕ) : Tracks (bleNplCalloutInit s.npl co evq func arg) l t f := by
  refine ⟨h.timers.init hact evq func arg, h.eventqs.eventInit hq func arg, fun c r hc => ?_⟩
  have hne : c ≠ co := by
    rintro rfl
    exact h.eventqs.not_queued hq ⟨r, hc⟩
  simpa [bleNplCalloutInit, hne] using h.bound c r hc

theorem stop (h : Tracks s.npl l t f) (co : Co) :
    ∃ n' f', bleNplCalloutStop s.npl co = some n' ∧
      Tracks n' (l.erase co) (t.stop co) f' ∧
      Moves s l t f (.stop co) none (l.erase co) (t.stop co) f' ∧
      ∀ c, (n'.callout c).evq = (s.npl.callout c).evq := by
  obtain ⟨n₁, hn₁, hl₁, hframe, -⟩ := h.timers.disarm co
  have hf₁ : Represents n₁.mem f := hframe.mem ▸ h.eventqs
  cases hr : (n₁.callout co).evq with
  | none =>
    refine ⟨n₁, f, ?_, h.of_frame hl₁ hf₁ hframe.evq (fun _ _ => .inl), .stop co (.inl rfl),
      hframe.evq⟩
    simp [bleNplCalloutStop, hn₁, calloutCancel, hr]
  | some r =>
    obtain ⟨m, hm, hf'⟩ := hf₁.remove r (eventOf co)
    refine ⟨{ n₁ with mem := m }, _, ?_, h.of_frame (hl₁.withMem m) hf' hframe.evq
      (fun _ _ he => .inl (Fifos.mem_remove he)), .stop co (.inr ⟨r, rfl⟩), hframe.evq⟩
    simp [bleNplCalloutStop, hn₁, calloutCancel, hr, hm]

omit [Fintype Co] [Fintype Ev] in
theorem fireTurn (h : Tracks s.npl l t f) :
    ∃ l' t' f', Tracks (Npl.fireTurn s.npl s.now) l' t' f' ∧
      Moves s l t f .fireTurn none l' t' f' ∧
      ∀ c, ((Npl.fireTurn s.npl s.now).callout c).evq = (s.npl.callout c).evq := by
  obtain ⟨htake, hlate⟩ | ⟨co, x, l', n₁, rfl, -, -, hn₁, hl₁, hframe, -⟩ :=
    h.timers.takeDue_cases s.now
  · have hturn : Npl.fireTurn s.npl s.now = s.npl := by simp only [Npl.fireTurn, htake]
    rw [hturn]
    exact ⟨l, t, f, h, .idle hlate, fun _ => rfl⟩
  · have hf₁ : Represents n₁.mem f := hframe.mem ▸ h.eventqs
    have hevq := hframe.evq co
    cases hr : (n₁.callout co).evq with
    | none =>
      have hturn : Npl.fireTurn s.npl s.now = n₁ := by
        simp [Npl.fireTurn, hn₁, calloutExpire, hr]
      rw [hturn]
      exact ⟨l', _, f, h.of_frame hl₁ hf₁ hframe.evq (fun _ _ => .inl),
        .fire rfl (.inl ⟨hevq.symm.trans hr, rfl⟩), hframe.evq⟩
    | some r =>
      have hturn : Npl.fireTurn s.npl s.now =
          { n₁ with mem := (bleNplEventqPut n₁.mem r (eventOf co)).1 } := by
        simp [Npl.fireTurn, hn₁, calloutExpire, hr]
      rw [hturn]
      refine ⟨l', _, _, h.of_frame (hl₁.withMem _) (hf₁.put r (eventOf co)) hframe.evq
        (fun r' c hc => ?_), .fire rfl (.inr ⟨r, hevq.symm.trans hr, rfl⟩), hframe.evq⟩
      refine (Fifos.mem_put hc).imp_right (fun hput => ?_)
      obtain ⟨heq, rfl, -⟩ := hput
      obtain rfl : c = co := Sum.inl.inj heq
      exact hevq.symm.trans hr

/-- Every call returns and is one of the moves. -/
theorem step (h : Tracks s.npl l t f) {a : ServiceCall Co Evq} (hp : InitPromise s a) :
    ∃ s' popped l' t' f', servicePops s a = some (s', popped) ∧ Tracks s'.npl l' t' f' ∧
      Moves s l t f a popped l' t' f' ∧ s.now ≤ s'.now ∧
      ∀ c, a.Spares {c} → (s'.npl.callout c).evq = (s.npl.callout c).evq := by
  cases a with
  | init co evq func arg =>
    refine ⟨_, none, l, t, f, rfl, h.init hp.1 hp.2 evq func arg, .init co evq func arg, le_rfl,
      fun c hc => ?_⟩
    have hne : c ≠ co := fun heq => hc (by simp [heq])
    simp [bleNplCalloutInit, hne]
  | reset co ticks =>
    obtain ⟨n', l', hn, hl', hframe, -⟩ := h.timers.reset co ticks s.now
    have hf : Represents n'.mem f := hframe.mem ▸ h.eventqs
    have hstep : servicePops s (.reset co ticks) = some (⟨n', s.now,
        Function.update s.latest co (.reset (s.now + ticks))⟩, none) := by
      simp [servicePops, serviceStep, hn]
    exact ⟨_, none, l', _, f, hstep, h.of_frame hl' hf hframe.evq (fun _ _ => .inl),
      .reset co ticks l', le_rfl, fun c _ => hframe.evq c⟩
  | stop co =>
    obtain ⟨n', f', hn, h', hmoves, hevq⟩ := h.stop co
    have hstep : servicePops s (.stop co) = some (⟨n', s.now,
        Function.update s.latest co .stopped⟩, none) := by
      simp [servicePops, serviceStep, hn]
    exact ⟨_, none, _, _, f', hstep, h', hmoves, le_rfl, fun c _ => hevq c⟩
  | fireTurn =>
    obtain ⟨l', t', f', h', hmoves, hevq⟩ := h.fireTurn
    exact ⟨_, none, l', t', f', rfl, h', hmoves, le_rfl, fun c _ => hevq c⟩
  | pop r =>
    obtain ⟨hpop, hres⟩ := h.eventqs.tryPop r
    refine ⟨_, _, l, t, _, rfl, h.of_frame (h.timers.withMem _) hpop (fun _ => rfl)
      (fun _ _ hc => .inl (Fifos.mem_pop hc)), ?_, le_rfl, fun _ _ => rfl⟩
    simp only [hres]
    exact .pop r
  | advance ms =>
    exact ⟨_, none, l, t, f, rfl, h, .advance ms, Nat.le_add_right s.now ms, fun _ _ => rfl⟩

end Tracks

namespace Moves

variable {kept : Finset Co} {s : Serviced Co Ev Evq Wk} {l l' : List Co} {t t' : TimerQueue Co}
  {f f' : Fifos (Co ⊕ Ev) Evq} {a : ServiceCall Co Evq} {popped : Option (Co ⊕ Ev)}

theorem initialized (h : Moves s l t f a popped l' t' f') : f'.initialized = f.initialized := by
  cases h with
  | stop co hf =>
    obtain rfl | ⟨r, rfl⟩ := hf
    · rfl
    · rfl
  | fire hl hf =>
    obtain ⟨-, rfl⟩ | ⟨r, -, rfl⟩ := hf
    · rfl
    · rw [Fifos.put_initialized]
  | pop r => rw [Fifos.pop_initialized]
  | _ => rfl

/-- A callout that the call is not about is not armed by it, nor armed differently. -/
theorem armed (h : Moves s l t f a popped l' t' f') {co : Co} (hspares : a.Spares {co})
    {x : Instant × ℕ} (hx : t'.armed co = some x) : t.armed co = some x := by
  cases h with
  | reset c ticks =>
    have hne : co ≠ c := fun heq => hspares (by simp [heq])
    simpa [hne] using hx
  | stop c => exact (TimerQueue.armed_of_stop hx).2
  | fire hl => exact (TimerQueue.armed_of_stop hx).2
  | _ => exact hx

/-- What gets on a queue is the event of a callout that has just fired. -/
theorem queued (h : Moves s l t f a popped l' t' f') {co : Co} (hq : f'.Queued (eventOf co)) :
    f.Queued (eventOf co) ∨ t'.armed co = none := by
  obtain ⟨r, hr⟩ := hq
  cases h with
  | stop c hf =>
    obtain rfl | ⟨r', rfl⟩ := hf
    · exact .inl ⟨r, hr⟩
    · exact .inl ⟨r, Fifos.mem_remove hr⟩
  | fire hl hf =>
    obtain ⟨-, rfl⟩ | ⟨r', -, rfl⟩ := hf
    · exact .inl ⟨r, hr⟩
    · obtain hold | ⟨heq, -⟩ := Fifos.mem_put hr
      · exact .inl ⟨r, hold⟩
      · obtain rfl := Sum.inl.inj heq
        exact .inr (by simp)
  | pop r' => exact .inl ⟨r, Fifos.mem_pop hr⟩
  | _ => exact .inl ⟨r, hr⟩

/-- A stop of another callout is not seen among those that are kept. -/
theorem filterMap_stop {co : Co} (hco : co ∉ kept)
    (hf : f' = f ∨ ∃ r, f' = f.remove r (eventOf co)) (q : Evq) :
    (f'.items q).filterMap (keptCallout kept) = (f.items q).filterMap (keptCallout kept) := by
  have hdrop : keptCallout kept (eventOf co : Co ⊕ Ev) = none := by simp [hco]
  obtain rfl | ⟨r, rfl⟩ := hf
  · rfl
  · by_cases hqr : q = r
    · simp [Fifos.remove, hqr, filterMap_erase_of_none hdrop]
    · simp [Fifos.remove, hqr]

end Moves

/-- None of `kept` is armed while its event is queued, and all are bound to `q`. -/
structure Serving (kept : Finset Co) (q : Evq) (n : State Co Ev Evq Wk) (l : List Co)
    (t : TimerQueue Co) (f : Fifos (Co ⊕ Ev) Evq) : Prop extends Tracks n l t f where
  initialized : f.initialized q = true
  evq : ∀ co ∈ kept, (n.callout co).evq = some q
  unqueued : ∀ co ∈ kept, (t.armed co).isSome = true → ¬ f.Queued (eventOf co)

namespace Serving

variable {kept : Finset Co} {q : Evq} {s s' : Serviced Co Ev Evq Wk} {l l' : List Co}
  {t t' : TimerQueue Co} {f f' : Fifos (Co ⊕ Ev) Evq} {a : ServiceCall Co Evq}
  {popped : Option (Co ⊕ Ev)} {co : Co}

theorem move (h : Serving kept q s.npl l t f) (h' : Tracks s'.npl l' t' f')
    (hmove : Moves s l t f a popped l' t' f') (hspares : a.Spares kept)
    (hevq : ∀ c, a.Spares {c} → (s'.npl.callout c).evq = (s.npl.callout c).evq) :
    Serving kept q s'.npl l' t' f' where
  toTracks := h'
  initialized := by
    rw [hmove.initialized]
    exact h.initialized
  evq co hco := (hevq co (hspares.mono (by simpa using hco))).trans (h.evq co hco)
  unqueued co hco harm := by
    obtain ⟨x, hx⟩ := Option.isSome_iff_exists.mp harm
    intro hq
    obtain hold | hnone := hmove.queued hq
    · have hbefore := hmove.armed (hspares.mono (by simpa using hco)) hx
      exact h.unqueued co hco (by simp [hbefore]) hold
    · exact absurd (hx.symm.trans hnone) (by simp)

omit [DecidableEq Ev] in
theorem fires (h : Serving kept q s.npl (co :: l) t f) (hx : (t.armed co).isSome = true)
    (hf : (s.npl.callout co).evq = none ∧ f' = f ∨
      ∃ r, (s.npl.callout co).evq = some r ∧ f' = f.put r (eventOf co)) :
    expiries kept (f'.items q) l = expiries kept (f.items q) (co :: l) := by
  by_cases hco : co ∈ kept
  · -- the expiry goes from the front of the list to the back of the queue
    have hevq := h.evq co hco
    obtain ⟨hnone, -⟩ | ⟨r, hr, rfl⟩ := hf
    · exact absurd (hevq.symm.trans hnone) (by simp)
    · obtain rfl : r = q := Option.some.inj (hr.symm.trans hevq)
      have hput := Fifos.put_of_not_queued (h.unqueued co hco hx) h.initialized
      simp [expiries, hput, hco]
  · have hdrop : keptCallout kept (eventOf co : Co ⊕ Ev) = none := by simp [hco]
    obtain ⟨-, rfl⟩ | ⟨r, -, rfl⟩ := hf
    · simp [expiries, hco]
    · simp [expiries, Fifos.filterMap_put hdrop, hco]

omit [DecidableEq Ev] in
theorem pops (h : Serving kept q s.npl l t f) (r : Evq) :
    served kept (f.pop r).2 ++ expiries kept ((f.pop r).1.items q) l =
      expiries kept (f.items q) l := by
  cases hitems : f.items r with
  | nil => simp [Fifos.pop, hitems, served]
  | cons e rest =>
    by_cases hqr : q = r
    · subst hqr
      cases he : keptCallout kept e with
      | none => simp [Fifos.pop, hitems, served, expiries, he]
      | some co => simp [Fifos.pop, hitems, served, expiries, he]
    · -- what is on another queue is not an event of `kept`
      have he : keptCallout kept e = none := by
        refine keptCallout_eq_none.mpr (fun co hco heq => hqr ?_)
        have hbound := h.bound co r (by simp [hitems, heq])
        exact Option.some.inj ((h.evq co hco).symm.trans hbound)
      simp [Fifos.pop, hitems, served, he, hqr]

/-- What a call pops of the expiries is the first of them. -/
theorem conserves (h : Serving kept q s.npl l t f) (h' : Tracks s'.npl l' t' f')
    (hmove : Moves s l t f a popped l' t' f') (hspares : a.Spares kept) :
    served kept popped ++ expiries kept (f'.items q) l' = expiries kept (f.items q) l := by
  cases hmove with
  | reset co ticks l' =>
    have harmed : ∀ c ∈ kept, (t.reset co (s.now + ticks)).armed c = t.armed c := by
      intro c hc
      rw [TimerQueue.reset_armed, if_neg (ne_of_mem_of_not_mem hc hspares)]
    simp [served, expiries, filter_eq_of_armed h.timers h'.timers harmed]
  | stop co hf =>
    have harmed : ∀ c ∈ kept, (t.stop co).armed c = t.armed c := by
      intro c hc
      rw [TimerQueue.stop_armed, if_neg (ne_of_mem_of_not_mem hc hspares)]
    simp [served, expiries, filter_eq_of_armed h.timers h'.timers harmed,
      Moves.filterMap_stop hspares hf]
  | fire hl hf =>
    subst hl
    exact h.fires ((h.timers.members _).mp (by simp)) hf
  | pop r => exact h.pops r
  | _ => rfl

omit [DecidableEq Evq] [DecidableEq Ev] in
theorem nodup (h : Serving kept q s.npl l t f) : (expiries kept (f.items q) l).Nodup := by
  have hqueue : ((f.items q).filterMap (keptCallout kept)).Nodup :=
    (h.eventqs.nodup q).filterMap (fun e e' co he he' => by
      rw [eq_eventOf_of_keptCallout he, eq_eventOf_of_keptCallout he'])
  refine List.nodup_append.mpr ⟨hqueue, h.timers.nodup.filter _, ?_⟩
  rintro co hco _ harm rfl
  obtain ⟨e, he, hkept⟩ := List.mem_filterMap.mp hco
  obtain rfl := eq_eventOf_of_keptCallout hkept
  simp only [List.mem_filter, decide_eq_true_eq] at harm
  exact h.unqueued co harm.2 ((h.timers.members co).mp harm.1) ⟨q, he⟩

variable [Fintype Co] [Fintype Ev]

omit [DecidableEq Ev] [DecidableEq Evq] in
theorem pending_eq (h : Serving kept q s.npl l t f) :
    pending kept q s = expiries kept (f.items q) l := by
  rw [pending, queuedList, timersList, collect_card (h.eventqs.chain q),
    collect_card h.timers.chain]

theorem step (h : Serving kept q s.npl l t f) (hp : InitPromise s a)
    (hspares : a.Spares kept) :
    ∃ s' popped l' t' f', servicePops s a = some (s', popped) ∧
      Serving kept q s'.npl l' t' f' ∧ Moves s l t f a popped l' t' f' ∧ s.now ≤ s'.now ∧
      served kept popped ++ expiries kept (f'.items q) l' = expiries kept (f.items q) l := by
  obtain ⟨s', popped, l', t', f', hs', h', hmove, hnow, hevq⟩ := h.toTracks.step hp
  exact ⟨s', popped, l', t', f', hs', h.move h' hmove hspares hevq, hmove, hnow,
    h.conserves h' hmove hspares⟩

/-- The same of a step that is known. -/
theorem next (h : Serving kept q s.npl l t f) (hp : InitPromise s a) (hspares : a.Spares kept)
    (hstep : serviceStep s a = some s') :
    ∃ popped l' t' f', Serving kept q s'.npl l' t' f' ∧ Moves s l t f a popped l' t' f' ∧
      s.now ≤ s'.now := by
  obtain ⟨u, popped, l', t', f', hu, h', hmove, hnow, -⟩ := h.step hp hspares
  have hsilent : serviceStep s a = some u := by
    rw [← silent_servicePops]
    exact silent_eq_some.mpr ⟨popped, hu⟩
  obtain rfl : u = s' := Option.some.inj (hsilent.symm.trans hstep)
  exact ⟨popped, l', t', f', h', hmove, hnow⟩

end Serving

/-- The invariant of the runs: some lists and some armings explain the state. -/
def LeavesAlone (kept : Finset Co) (q : Evq) (s : Serviced Co Ev Evq Wk) : Prop :=
  ∃ l t f, Serving kept q s.npl l t f

section Runs
variable [Fintype Co] [Fintype Ev] {m : Mem (Co ⊕ Ev) Evq Wk} {f : Fifos (Co ⊕ Ev) Evq}

omit [DecidableEq Co] [DecidableEq Ev] [DecidableEq Evq] [Fintype Co] [Fintype Ev] in
theorem serving_start (hm : Represents m f) (hf : ∀ co : Co, ¬ f.Queued (eventOf co)) {q : Evq}
    (hq : f.initialized q = true) (now : Instant) :
    Serving ∅ q (Serviced.start m now).npl [] TimerQueue.empty f where
  timers := timersRepresent_empty rfl (fun _ => rfl)
  eventqs := hm
  initialized := hq
  bound co r hco := absurd ⟨r, hco⟩ (hf co)
  evq := by simp
  unqueued := by simp

omit [DecidableEq Co] [DecidableEq Ev] [DecidableEq Evq] [Fintype Co] [Fintype Ev] in
/-- Any callouts can be kept from here on, if none of them is armed and queued. -/
theorem Serving.keep {kept : Finset Co} {q : Evq} {n : State Co Ev Evq Wk} {l : List Co}
    {t : TimerQueue Co} (h : Serving ∅ q n l t f)
    (hkept : ∀ co ∈ kept, (n.callout co).evq = some q ∧
      ((n.callout co).active = true → bleNplEventIsQueued n.mem (eventOf co) = false)) :
    Serving kept q n l t f where
  toTracks := h.toTracks
  initialized := h.initialized
  evq co hco := (hkept co hco).1
  unqueued co hco harm :=
    h.eventqs.not_queued ((hkept co hco).2 ((h.timers.active co).trans harm))

/-- Every run that the C side may make keeps the invariant. -/
theorem leavesAlone_run (hm : Represents m f) (hf : ∀ co : Co, ¬ f.Queued (eventOf co)) {q : Evq}
    (hq : f.initialized q = true) {now : Instant} {calls : List (ServiceCall Co Evq)}
    {s : Serviced Co Ev Evq Wk}
    (hcalls : Keeps serviceStep InitPromise (Serviced.start m now) calls)
    (hrun : run serviceStep (Serviced.start m now) calls = some s) :
    LeavesAlone ∅ q s := by
  have hstep : ∀ (s : Serviced Co Ev Evq Wk) a s', LeavesAlone ∅ q s → InitPromise s a →
      serviceStep s a = some s' → LeavesAlone ∅ q s' := by
    rintro s a s' ⟨l, t, g, h⟩ hp hs'
    have hspares : a.Spares ∅ := by cases a <;> simp [ServiceCall.Spares]
    obtain ⟨-, l', t', g', h', -, -⟩ := h.next hp hspares hs'
    exact ⟨l', t', g', h'⟩
  have hall : Always serviceStep (LeavesAlone ∅ q) (Serviced.start m now) calls :=
    always_of_meets hstep (fun _ h => h) ⟨_, _, _, serving_start hm hf hq now⟩ hcalls.meets
  exact (always_iff_forall_run _ _).mp hall calls s List.prefix_rfl hrun

theorem expiries_conserved {kept : Finset Co} {q : Evq} {s : Serviced Co Ev Evq Wk}
    (h : LeavesAlone kept q s) {more : List (ServiceCall Co Evq)}
    (hmore : Keeps serviceStep (fun s a => InitPromise s a ∧ a.Spares kept) s more) :
    ∃ s' popped, trace servicePops s more = some (s', popped) ∧ LeavesAlone kept q s' ∧
      popped.flatMap (served kept) ++ pending kept q s' = pending kept q s := by
  rw [← silent_servicePops] at hmore
  refine trace_conserves (pending kept q) (served kept) ?_ h hmore
  rintro s a ⟨l, t, g, h⟩ ⟨hp, hspares⟩
  obtain ⟨s', popped, l', t', g', hs', h', -, -, hlist⟩ := h.step hp hspares
  refine ⟨s', popped, hs', ⟨l', t', g', h'⟩, ?_⟩
  rw [h'.pending_eq, h.pending_eq, hlist]

/-- Of callouts that are left alone, none both armed and queued, the expiries come off
the queue in one order: first those that are queued, then those on the timer list, which
is in order of the deadlines. None is lost and none comes twice, whatever the other
callouts do on the same list and queue. -/
theorem expiries_served_in_order (hm : Represents m f)
    (hf : ∀ co : Co, ¬ f.Queued (eventOf co)) {q : Evq} (hq : f.initialized q = true)
    {now : Instant} {calls more : List (ServiceCall Co Evq)} {s : Serviced Co Ev Evq Wk}
    (hcalls : Keeps serviceStep InitPromise (Serviced.start m now) calls)
    (hrun : run serviceStep (Serviced.start m now) calls = some s) {kept : Finset Co}
    (hkept : ∀ co ∈ kept, (s.npl.callout co).evq = some q ∧
      ((s.npl.callout co).active = true → bleNplEventIsQueued s.npl.mem (eventOf co) = false))
    (hmore : Keeps serviceStep (fun s a => InitPromise s a ∧ a.Spares kept) s more) :
    ∃ s' popped, trace servicePops s more = some (s', popped) ∧
      (timersList s.npl).Pairwise
        (fun a b => (s.npl.callout a).deadline ≤ (s.npl.callout b).deadline) ∧
      (pending kept q s).Nodup ∧
      popped.flatMap (served kept) ++ pending kept q s' = pending kept q s := by
  obtain ⟨l, t, g, h⟩ := leavesAlone_run hm hf hq hcalls hrun
  have hserving := h.keep hkept
  obtain ⟨s', popped, htrace, -, hconserved⟩ := expiries_conserved ⟨l, t, g, hserving⟩ hmore
  refine ⟨s', popped, htrace, ?_, ?_, hconserved⟩
  · rw [timersList, collect_card h.timers.chain]
    exact h.timers.deadlines
  · rw [hserving.pending_eq]
    exact hserving.nodup

/-- The timer list is 1, 2, 0 after these calls. -/
def armThree : List (ServiceCall (Fin 3) (Fin 1)) :=
  [.init 0 (some 0) none 0, .init 1 (some 0) none 0, .init 2 (some 0) none 0, .reset 0 10,
    .reset 1 5, .reset 2 7]

/-- The one in the middle is armed again, behind the other two. -/
def serveTwo : List (ServiceCall (Fin 3) (Fin 1)) :=
  [.advance 10, .fireTurn, .reset 2 0, .pop 0, .fireTurn, .fireTurn, .pop 0]

/-- The first one fires and is armed again. -/
def fireThree : List (ServiceCall (Fin 3) (Fin 1)) :=
  [.fireTurn, .reset 1 0, .fireTurn, .fireTurn]

def popThree : List (ServiceCall (Fin 3) (Fin 1)) := [.pop 0, .fireTurn, .pop 0, .pop 0]

theorem expiries_served_in_order_of_two :
    ∃ (s s' : Serviced (Fin 3) (Fin 0) (Fin 1) (Fin 1)) (popped : List (Option (Fin 3 ⊕ Fin 0))),
      run serviceStep (Serviced.start (bleNplEventqInit Mem.zeroed 0) 0) armThree = some s ∧
      trace servicePops s serveTwo = some (s', popped) ∧
      popped.flatMap (served {0, 1}) ++ pending {0, 1} 0 s' = [1, 0] := by
  have hnext : ∀ s : Serviced (Fin 3) (Fin 0) (Fin 1) (Fin 1),
      run serviceStep (Serviced.start (bleNplEventqInit Mem.zeroed 0) 0) armThree = some s →
        (∀ co ∈ ({0, 1} : Finset (Fin 3)), (s.npl.callout co).evq = some 0 ∧
          ((s.npl.callout co).active = true →
            bleNplEventIsQueued s.npl.mem (eventOf co) = false)) ∧
        Keeps serviceStep (fun s a => InitPromise s a ∧ a.Spares {0, 1}) s serveTwo ∧
        pending {0, 1} 0 s = [1, 0] := by decide
  obtain ⟨s, hs⟩ : ∃ s : Serviced (Fin 3) (Fin 0) (Fin 1) (Fin 1),
      run serviceStep (Serviced.start (bleNplEventqInit Mem.zeroed 0) 0) armThree = some s :=
    Option.isSome_iff_exists.mp (by decide)
  obtain ⟨hkept, hmore, hpending⟩ := hnext s hs
  obtain ⟨s', popped, htrace, -, -, hconserved⟩ := expiries_served_in_order
    (represents_zeroed.eventqInit rfl) (by simp [Fifos.Queued, Fifos.init, Fifos.empty])
    (q := 0) (by simp [Fifos.init]) (by decide) hs hkept hmore
  exact ⟨s, s', popped, hs, htrace, hconserved.trans hpending⟩

end Runs

end NimbleRs.Npl
