import NimbleRs.CalloutOrder
import Mathlib.Tactic

/-!
# A due callout is not overtaken

A callout that is due has nothing put ahead of it any more: a callout that is armed
now is due no earlier, and an event that fires goes to the back of the queue. The
number of callouts ahead on the timer list, and then of events ahead on the queue,
bounds how long it waits. All of it is about whole calls in a single context, whose reset
reads the clock with nothing in between.
-/
namespace NimbleRs.Npl
open PointerChain TransitionSystem

section Position
variable {α : Type*} [DecidableEq α]

/-- Counted from one; zero is for what is not on the list. -/
def position (a : α) (l : List α) : ℕ := if a ∈ l then l.idxOf a + 1 else 0

theorem position_eq_zero {a : α} {l : List α} : position a l = 0 ↔ a ∉ l := by
  by_cases ha : a ∈ l <;> simp [position, ha]

theorem position_le_length (a : α) (l : List α) : position a l ≤ l.length := by
  by_cases ha : a ∈ l
  · have := List.idxOf_lt_length_of_mem ha
    simp only [position, ha, if_true]
    omega
  · simp [position, ha]

theorem position_le_idxOf (a : α) (l : List α) : position a l ≤ l.idxOf a + 1 := by
  by_cases ha : a ∈ l <;> simp [position, ha]

theorem position_append_cons {a : α} {l₁ l₂ : List α} (ha : a ∉ l₁) :
    position a (l₁ ++ a :: l₂) = l₁.length + 1 := by
  rw [position, if_pos (by simp), List.idxOf_append_of_notMem ha, List.idxOf_cons_self,
    Nat.add_zero]

/-- Taking off the first element. -/
theorem position_tail {a b : α} {l : List α} (hb : b ∉ l) :
    position a l ≤ position a (b :: l) - 1 := by
  by_cases hba : b = a
  · subst hba
    simp [position, hb]
  · by_cases ha : a ∈ l
    · simp [position, ha, List.idxOf_cons_ne _ hba]
    · simp [position, ha]

theorem position_erase {a b : α} (hba : b ≠ a) (l : List α) :
    position a (l.erase b) ≤ position a l := by
  induction l with
  | nil => simp
  | cons c l ih =>
    by_cases hcb : c = b
    · subst hcb
      rw [List.erase_cons_head]
      by_cases ha : a ∈ l
      · simp [position, ha, List.idxOf_cons_ne _ hba]
      · simp [position, ha]
    · rw [List.erase_cons_tail (by simpa using hcb)]
      by_cases hca : c = a
      · subst hca
        simp [position]
      · have hmem : a ∈ l.erase b ↔ a ∈ l := List.mem_erase_of_ne (Ne.symm hba)
        by_cases ha : a ∈ l
        · simp only [position, hmem, ha, if_true] at ih
          simpa [position, hmem, ha, List.idxOf_cons_ne _ hca] using ih
        · simp [position, hmem, ha, Ne.symm hca]

theorem position_concat {a b : α} (hba : b ≠ a) (l : List α) :
    position a (l ++ [b]) = position a l := by
  by_cases ha : a ∈ l
  · simp [position, ha, List.idxOf_append_of_mem ha]
  · simp [position, ha, Ne.symm hba]

/-- If all that is ahead of `a` now was ahead of it before, there is no more of it. -/
theorem position_le_of_ahead {a : α} {l l' : List α} (hl' : l'.Nodup)
    (hmem : a ∈ l' → a ∈ l)
    (hahead : ∀ l₁ l₂ l₁' l₂', l = l₁ ++ a :: l₂ → l' = l₁' ++ a :: l₂' → l₁' ⊆ l₁)
    (hl : l.Nodup) : position a l' ≤ position a l := by
  by_cases ha : a ∈ l'
  · obtain ⟨l₁, l₂, rfl⟩ := List.append_of_mem (hmem ha)
    obtain ⟨l₁', l₂', rfl⟩ := List.append_of_mem ha
    have hnot : a ∉ l₁ := fun hc => (List.nodup_append.mp hl).2.2 a hc a (by simp) rfl
    have hnot' : a ∉ l₁' := fun hc => (List.nodup_append.mp hl').2.2 a hc a (by simp) rfl
    have hlen := (List.subperm_of_subset (List.nodup_append.mp hl').1
      (hahead l₁ l₂ l₁' l₂' rfl rfl)).length_le
    rw [position_append_cons hnot, position_append_cons hnot']
    omega
  · simp [position, ha]

end Position

variable {Co Ev Evq Wk : Type*} [DecidableEq Co] [DecidableEq Ev] [DecidableEq Evq]

def ServiceCall.isFireTurn : ServiceCall Co Evq → Bool
  | .fireTurn => true
  | _ => false

def ServiceCall.isPop (q : Evq) : ServiceCall Co Evq → Bool
  | .pop r => decide (r = q)
  | _ => false

/-- What is armed now comes behind what is due already: it is due no earlier, and is the later
arming. -/
theorem TimerQueue.Before.of_reset {t : TimerQueue Co} {b c co : Co} {deadline : Instant}
    (h : (t.reset c deadline).Before b co) (hne : co ≠ c)
    (hdue : ∀ y, t.armed co = some y → y.1 ≤ deadline ∧ y.2 < t.arms) : t.Before b co := by
  obtain ⟨x, y, hx, hy, hlt⟩ := h
  rw [TimerQueue.reset_armed, if_neg hne] at hy
  by_cases hbc : b = c
  · rw [TimerQueue.reset_armed, if_pos hbc] at hx
    obtain rfl := Option.some.inj hx
    obtain ⟨hle, hfresh⟩ := hdue y hy
    obtain hlt | ⟨-, hlt⟩ := hlt
    · exact absurd hlt hle.not_gt
    · exact absurd hlt hfresh.le.not_gt
  · rw [TimerQueue.reset_armed, if_neg hbc] at hx
    exact ⟨x, y, hx, hy, hlt⟩

theorem TimerQueue.Before.of_stop {t : TimerQueue Co} {b c co : Co}
    (h : (t.stop c).Before b co) : t.Before b co := by
  obtain ⟨x, y, hx, hy, hlt⟩ := h
  exact ⟨x, y, (TimerQueue.armed_of_stop hx).2, (TimerQueue.armed_of_stop hy).2, hlt⟩

omit [DecidableEq Co] [DecidableEq Ev] [DecidableEq Evq] in
/-- What is ahead of a callout on the list is served before it. -/
theorem TimersRepresent.mem_ahead {n : State Co Ev Evq Wk} {t : TimerQueue Co} {l₁ l₂ : List Co}
    {co c : Co} (h : TimersRepresent n (l₁ ++ co :: l₂) t) : c ∈ l₁ ↔ t.Before c co := by
  obtain ⟨-, hrest, hcross⟩ := List.pairwise_append.mp h.order
  refine ⟨fun hc => hcross c hc co (by simp), fun hbefore => ?_⟩
  have hmem : c ∈ l₁ ++ co :: l₂ := by
    obtain ⟨x, y, hx, -, -⟩ := hbefore
    exact (h.members c).mpr (by simp [hx])
  obtain hc | hc := List.mem_append.mp hmem
  · exact hc
  · obtain rfl | hc := List.mem_cons.mp hc
    · exact absurd hbefore hbefore.asymm
    · exact absurd hbefore ((List.pairwise_cons.mp hrest).1 c hc).asymm

omit [DecidableEq Ev] [DecidableEq Evq] in
/-- No call puts anything ahead of the callout on the timer list. -/
theorem TimersRepresent.position_le {n n' : State Co Ev Evq Wk} {l l' : List Co}
    {t t' : TimerQueue Co} {co : Co} (h : TimersRepresent n l t) (h' : TimersRepresent n' l' t')
    (harmed : (t'.armed co).isSome = true → (t.armed co).isSome = true)
    (hbefore : ∀ c, t'.Before c co → t.Before c co) : position co l' ≤ position co l := by
  refine position_le_of_ahead h'.nodup ?_ ?_ h.nodup
  · rw [h.members, h'.members]
    exact harmed
  · rintro l₁ l₂ l₁' l₂' rfl rfl c hc
    exact h.mem_ahead.mpr (hbefore c (h'.mem_ahead.mp hc))

namespace Moves

variable {q : Evq} {s s' : Serviced Co Ev Evq Wk} {l l' : List Co} {t t' : TimerQueue Co}
  {f f' : Fifos (Co ⊕ Ev) Evq} {a : ServiceCall Co Evq} {popped : Option (Co ⊕ Ev)} {co : Co}

/-- A callout that is due moves up with each turn of the loop. -/
theorem position_timers (hmove : Moves s l t f a popped l' t' f') (h : Tracks s.npl l t f)
    (h' : Tracks s'.npl l' t' f') (hspares : a.Spares {co})
    (hdue : ∀ x, t.armed co = some x → x.1 ≤ s.now) :
    position co l' ≤ position co l - if a.isFireTurn = true then 1 else 0 := by
  have harmed : (t'.armed co).isSome = true → (t.armed co).isSome = true := by
    intro harm
    obtain ⟨x, hx⟩ := Option.isSome_iff_exists.mp harm
    simp [hmove.armed hspares hx]
  cases hmove with
  | reset c ticks =>
    have hne : co ≠ c := fun heq => hspares (by simp [heq])
    refine h.timers.position_le h'.timers harmed (fun b hb => hb.of_reset hne (fun y hy => ?_))
    exact ⟨(hdue y hy).trans (Nat.le_add_right s.now ticks), h.timers.fresh co y hy⟩
  | stop c => exact h.timers.position_le h'.timers harmed (fun b hb => hb.of_stop)
  | idle hlate =>
    have hnot : co ∉ l := by
      intro hco
      obtain ⟨x, hx⟩ := Option.isSome_iff_exists.mp ((h.timers.members co).mp hco)
      exact absurd (hdue x hx) (hlate co hco x hx).not_ge
    simp [position_eq_zero.mpr hnot]
  | fire hl =>
    subst hl
    exact position_tail (List.nodup_cons.mp h.timers.nodup).1
  | _ => exact le_rfl

/-- An event on the queue moves up with each pop. -/
theorem position_queue (hmove : Moves s l t f a popped l' t' f') (h : Tracks s.npl l t f)
    (hspares : a.Spares {co}) (hnone : t.armed co = none) :
    position (eventOf co) (f'.items q) ≤
      position (eventOf co) (f.items q) - if a.isPop q = true then 1 else 0 := by
  cases hmove with
  | stop c hf =>
    have hne : (eventOf c : Co ⊕ Ev) ≠ eventOf co :=
      fun heq => hspares (by simpa using Sum.inl.inj heq)
    obtain rfl | ⟨r, rfl⟩ := hf
    · exact le_rfl
    · by_cases hqr : q = r
      · simpa [Fifos.remove, hqr, ServiceCall.isPop] using position_erase hne (f.items r)
      · simp [Fifos.remove, hqr, ServiceCall.isPop]
  | @fire c l' f' hl hf =>
    have hne : (eventOf c : Co ⊕ Ev) ≠ eventOf co := by
      intro heq
      obtain rfl : c = co := Sum.inl.inj heq
      have harm := (h.timers.members c).mp (by simp [hl])
      simp [hnone] at harm
    obtain ⟨-, rfl⟩ | ⟨r, -, rfl⟩ := hf
    · exact le_rfl
    · obtain hsame | hput := f.put_items r q (eventOf c)
      · rw [hsame]
        exact le_rfl
      · rw [hput, position_concat hne]
        exact le_rfl
  | pop r =>
    by_cases hrq : r = q
    · subst hrq
      have hnodup := h.eventqs.nodup r
      cases hitems : f.items r with
      | nil => simp [Fifos.pop, hitems, position]
      | cons e rest =>
        rw [hitems] at hnodup
        simpa [Fifos.pop, hitems, ServiceCall.isPop] using
          position_tail (List.nodup_cons.mp hnodup).1
    · simp [ServiceCall.isPop, hrq, Fifos.pop_items_of_ne (Ne.symm hrq)]
  | _ => exact le_rfl

end Moves

section Runs
variable [Fintype Co] [Fintype Ev] {q : Evq} {co : Co} {s s' : Serviced Co Ev Evq Wk}

/-- The callout is left alone, and due if it is armed. -/
def Due (q : Evq) (co : Co) (s : Serviced Co Ev Evq Wk) : Prop :=
  ∃ l t f, Serving {co} q s.npl l t f ∧ ∀ x, t.armed co = some x → x.1 ≤ s.now

/-- The callout is left alone, and not armed. -/
def OffList (q : Evq) (co : Co) (s : Serviced Co Ev Evq Wk) : Prop :=
  ∃ l t f, Serving {co} q s.npl l t f ∧ t.armed co = none

theorem Due.step (h : Due q co s) {a : ServiceCall Co Evq} (hp : InitPromise s a)
    (hspares : a.Spares {co}) (hstep : serviceStep s a = some s') :
    Due q co s' ∧ position co (timersList s'.npl) ≤
      position co (timersList s.npl) - if a.isFireTurn = true then 1 else 0 := by
  obtain ⟨l, t, f, h, hdue⟩ := h
  obtain ⟨popped, l', t', f', h', hmove, hnow⟩ := h.next hp hspares hstep
  constructor
  · exact ⟨l', t', f', h', fun x hx => (hdue x (hmove.armed hspares hx)).trans hnow⟩
  · rw [timersList, timersList, collect_card h.timers.chain, collect_card h'.timers.chain]
    exact hmove.position_timers h.toTracks h'.toTracks hspares hdue

theorem OffList.step (h : OffList q co s) {a : ServiceCall Co Evq} (hp : InitPromise s a)
    (hspares : a.Spares {co}) (hstep : serviceStep s a = some s') :
    OffList q co s' ∧ position (eventOf co) (queuedList s'.npl.mem q) ≤
      position (eventOf co) (queuedList s.npl.mem q) - if a.isPop q = true then 1 else 0 := by
  obtain ⟨l, t, f, h, hnone⟩ := h
  obtain ⟨popped, l', t', f', h', hmove, -⟩ := h.next hp hspares hstep
  constructor
  · refine ⟨l', t', f', h', ?_⟩
    by_contra harm
    obtain ⟨x, hx⟩ := Option.ne_none_iff_exists'.mp harm
    simp [hmove.armed hspares hx] at hnone
  · rw [queuedList, queuedList, collect_card (h.eventqs.chain q),
      collect_card (h'.eventqs.chain q)]
    exact hmove.position_queue h.toTracks hspares hnone

omit [DecidableEq Ev] [DecidableEq Evq] [Fintype Ev] in
theorem Due.offList (h : Due q co s) (hzero : position co (timersList s.npl) = 0) :
    OffList q co s := by
  obtain ⟨l, t, f, h, -⟩ := h
  rw [timersList, collect_card h.timers.chain, position_eq_zero, h.timers.members] at hzero
  exact ⟨l, t, f, h, by simpa using hzero⟩

omit [DecidableEq Evq] in
/-- Off the list and off the queue, the expiry has been popped. -/
theorem OffList.pending_eq_nil (h : OffList q co s)
    (hq : position (eventOf co) (queuedList s.npl.mem q) = 0) : pending {co} q s = [] := by
  obtain ⟨l, t, f, h, hnone⟩ := h
  have hlist : co ∉ l := by simp [h.timers.members, hnone]
  rw [queuedList, collect_card (h.eventqs.chain q), position_eq_zero] at hq
  rw [h.pending_eq, expiries, List.append_eq_nil_iff, List.filterMap_eq_nil_iff]
  refine ⟨fun e he => keptCallout_eq_none.mpr (fun c hc heq => ?_), ?_⟩
  · obtain rfl := Finset.mem_singleton.mp hc
    exact hq (heq ▸ he)
  · refine List.filter_eq_nil_iff.mpr (fun c hc hkept => ?_)
    obtain rfl : c = co := by simpa using hkept
    exact hlist hc

omit [DecidableEq Ev] [DecidableEq Evq] in
theorem Serving.pending_singleton {l : List Co} {t : TimerQueue Co} {f : Fifos (Co ⊕ Ev) Evq}
    (h : Serving {co} q s.npl l t f) (harm : (t.armed co).isSome = true) :
    pending {co} q s = [co] := by
  have hco : co ∈ l := (h.timers.members co).mpr harm
  have hnone : (f.items q).filterMap (keptCallout {co}) = [] := by
    refine List.filterMap_eq_nil_iff.mpr (fun e he => keptCallout_eq_none.mpr ?_)
    rintro c hc rfl
    obtain rfl := Finset.mem_singleton.mp hc
    exact h.unqueued c (by simp) harm ⟨q, he⟩
  rw [h.pending_eq, expiries, hnone, List.nil_append]
  simp [List.filter_eq, List.count_eq_one_of_mem h.timers.nodup hco]

/-- A due callout that is left alone is popped, and once, within as many turns of the loop
of `timers_fire_due` as there are callouts up to it on the timer list, and then as many
pops as there are events on its queue, whatever is reset and stopped in between. -/
theorem due_callout_served {m : Mem (Co ⊕ Ev) Evq Wk} {f : Fifos (Co ⊕ Ev) Evq}
    (hm : Represents m f) (hf : ∀ co : Co, ¬ f.Queued (eventOf co))
    (hq : f.initialized q = true) {now : Instant} {calls fires pops : List (ServiceCall Co Evq)}
    {s₁ : Serviced Co Ev Evq Wk}
    (hcalls : Keeps serviceStep InitPromise (Serviced.start m now) calls)
    (hrun : run serviceStep (Serviced.start m now) calls = some s)
    (hevq : (s.npl.callout co).evq = some q) (hactive : (s.npl.callout co).active = true)
    (hdue : (s.npl.callout co).deadline ≤ s.now)
    (hunqueued : bleNplEventIsQueued s.npl.mem (eventOf co) = false)
    (hmore : Keeps serviceStep (fun s a => InitPromise s a ∧ a.Spares {co}) s (fires ++ pops))
    (hrun₁ : run serviceStep s fires = some s₁)
    (hfires : (timersList s.npl).idxOf co < fires.countP ServiceCall.isFireTurn)
    (hpops : (queuedList s₁.npl.mem q).length ≤ pops.countP (ServiceCall.isPop q)) :
    ∃ s₂ popped, trace servicePops s (fires ++ pops) = some (s₂, popped) ∧
      popped.flatMap (served {co}) = [co] := by
  obtain ⟨l, t, g, h⟩ := leavesAlone_run hm hf hq hcalls hrun
  have hserving : Serving {co} q s.npl l t g :=
    h.keep (fun c hc => Finset.mem_singleton.mp hc ▸ ⟨hevq, fun _ => hunqueued⟩)
  have harm : (t.armed co).isSome = true := by rw [← h.timers.active, hactive]
  have hstart : Due q co s := by
    refine ⟨l, t, g, hserving, fun x hx => ?_⟩
    rw [← h.timers.deadline co x hx]
    exact hdue
  obtain ⟨hkeeps, hkeeps₁⟩ := keeps_append hmore hrun₁
  obtain ⟨hdue₁, hrank⟩ := rank_le_of_run (fun s => position co (timersList s.npl))
    ServiceCall.isFireTurn (fun _ _ _ h hg hstep => h.step hg.1 hg.2 hstep) hstart hkeeps hrun₁
  have hahead := position_le_idxOf co (timersList s.npl)
  have hoff : OffList q co s₁ := hdue₁.offList (by omega)
  obtain ⟨s₂, popped, htrace, -, hconserved⟩ := expiries_conserved ⟨l, t, g, hserving⟩ hmore
  have hrun₂ : run serviceStep s₁ pops = some s₂ := by
    have := run_of_trace htrace
    rwa [silent_servicePops, run_append, hrun₁] at this
  obtain ⟨hoff₂, hrank₂⟩ := rank_le_of_run
    (fun s => position (eventOf co) (queuedList s.npl.mem q)) (ServiceCall.isPop q)
    (fun _ _ _ h hg hstep => h.step hg.1 hg.2 hstep) hoff hkeeps₁ hrun₂
  have hlen := position_le_length (eventOf co) (queuedList s₁.npl.mem q)
  have hnil : pending {co} q s₂ = [] := hoff₂.pending_eq_nil (by omega)
  rw [hnil, List.append_nil, hserving.pending_singleton harm] at hconserved
  exact ⟨s₂, popped, htrace, hconserved⟩

/-- The last callout of the list is popped though another one is armed again meanwhile. -/
theorem due_callout_served_last :
    ∃ (s s₂ : Serviced (Fin 3) (Fin 0) (Fin 1) (Fin 1)) (popped : List (Option (Fin 3 ⊕ Fin 0))),
      run serviceStep (Serviced.start (bleNplEventqInit Mem.zeroed 0) 0)
        (armThree ++ [.advance 10]) = some s ∧
      trace servicePops s (fireThree ++ popThree) = some (s₂, popped) ∧
      popped.flatMap (served {0}) = [0] := by
  have hnext : ∀ s : Serviced (Fin 3) (Fin 0) (Fin 1) (Fin 1),
      run serviceStep (Serviced.start (bleNplEventqInit Mem.zeroed 0) 0)
        (armThree ++ [.advance 10]) = some s →
        ((s.npl.callout 0).evq = some 0 ∧ (s.npl.callout 0).active = true ∧
          (s.npl.callout 0).deadline ≤ s.now ∧
          bleNplEventIsQueued s.npl.mem (eventOf 0) = false) ∧
        Keeps serviceStep (fun s a => InitPromise s a ∧ a.Spares {0}) s (fireThree ++ popThree) ∧
        (timersList s.npl).idxOf 0 < fireThree.countP ServiceCall.isFireTurn ∧
        (run serviceStep s fireThree).isSome = true ∧
        ∀ s₁, run serviceStep s fireThree = some s₁ →
          (queuedList s₁.npl.mem 0).length ≤ popThree.countP (ServiceCall.isPop 0) := by decide
  obtain ⟨s, hs⟩ : ∃ s : Serviced (Fin 3) (Fin 0) (Fin 1) (Fin 1),
      run serviceStep (Serviced.start (bleNplEventqInit Mem.zeroed 0) 0)
        (armThree ++ [.advance 10]) = some s := Option.isSome_iff_exists.mp (by decide)
  obtain ⟨⟨hevq, hactive, hdue, hunqueued⟩, hmore, hfires, hsome, hpops⟩ := hnext s hs
  obtain ⟨s₁, hs₁⟩ := Option.isSome_iff_exists.mp hsome
  obtain ⟨s₂, popped, htrace, hserved⟩ := due_callout_served
    (represents_zeroed.eventqInit rfl) (by simp [Fifos.Queued, Fifos.init, Fifos.empty])
    (by simp [Fifos.init]) (by decide) hs hevq hactive hdue hunqueued hmore hs₁ hfires
    (hpops s₁ hs₁)
  exact ⟨s, s₂, popped, hs, htrace, hserved⟩

end Runs

end NimbleRs.Npl
