import NimbleRs.Callout
import NimbleRs.EventQueueInvariant
import Mathlib.Tactic

/-!
# The timer list as a stable priority queue

`TimerQueue` is what the timer list is for: a set of armed callouts, each with its
deadline and the number of its arming, served by deadline and then by arming.
`TimersRepresent` ties the intrusive list to it. The list `l` of the callouts on
the chain is kept explicit, because the loops of the source go along it.
-/
namespace NimbleRs.Npl
open PointerChain

@[ext] structure TimerQueue (Co : Type*) where
  armed : Co → Option (Instant × ℕ)
  /-- How many armings there have been. -/
  arms : ℕ

namespace TimerQueue

variable {Co : Type*}

def empty : TimerQueue Co := ⟨fun _ => none, 0⟩

/-- `a` is served before `b`. -/
def Before (t : TimerQueue Co) (a b : Co) : Prop :=
  ∃ x y, t.armed a = some x ∧ t.armed b = some y ∧ (x.1 < y.1 ∨ x.1 = y.1 ∧ x.2 < y.2)

def reset [DecidableEq Co] (t : TimerQueue Co) (co : Co) (deadline : Instant) : TimerQueue Co :=
  ⟨Function.update t.armed co (some (deadline, t.arms)), t.arms + 1⟩

def stop [DecidableEq Co] (t : TimerQueue Co) (co : Co) : TimerQueue Co :=
  { t with armed := Function.update t.armed co none }

/-- Disarms everything that is due at `now`. -/
def fire (t : TimerQueue Co) (now : Instant) : TimerQueue Co :=
  { t with armed := fun co => (t.armed co).filter (fun x => decide (now < x.1)) }

@[simp] theorem reset_armed [DecidableEq Co] (t : TimerQueue Co) (co c : Co) (d : Instant) :
    (t.reset co d).armed c = if c = co then some (d, t.arms) else t.armed c := by
  simp [reset, Function.update_apply]

@[simp] theorem stop_armed [DecidableEq Co] (t : TimerQueue Co) (co c : Co) :
    (t.stop co).armed c = if c = co then none else t.armed c := by
  simp [stop, Function.update_apply]

/-- What is armed after a stop was armed before, and is not what was stopped. -/
theorem armed_of_stop [DecidableEq Co] {t : TimerQueue Co} {co c : Co} {x : Instant × ℕ}
    (hx : (t.stop co).armed c = some x) : c ≠ co ∧ t.armed c = some x := by
  by_cases hc : c = co
  · simp [hc] at hx
  · exact ⟨hc, by simpa [hc] using hx⟩

theorem fire_armed (t : TimerQueue Co) (now : Instant) (co : Co) :
    (t.fire now).armed co = (t.armed co).filter (fun x => decide (now < x.1)) := rfl

/-- Only the armings of the two callouts matter for their order. -/
theorem Before.congr {t u : TimerQueue Co} {a b : Co} (h : t.Before a b)
    (ha : u.armed a = t.armed a) (hb : u.armed b = t.armed b) : u.Before a b := by
  obtain ⟨x, y, hx, hy, hlt⟩ := h
  exact ⟨x, y, by rw [ha, hx], by rw [hb, hy], hlt⟩

theorem Before.le {t : TimerQueue Co} {a b : Co} (h : t.Before a b) {x y : Instant × ℕ}
    (hx : t.armed a = some x) (hy : t.armed b = some y) : x.1 ≤ y.1 := by
  obtain ⟨u, v, hu, hv, hlt⟩ := h
  obtain rfl : x = u := Option.some.inj (hx.symm.trans hu)
  obtain rfl : y = v := Option.some.inj (hy.symm.trans hv)
  exact hlt.elim le_of_lt (fun he => le_of_eq he.1)

/-- A callout armed behind those that are due no later and before the others keeps the
order: those that it passes were armed earlier. -/
theorem pairwise_reset [DecidableEq Co] {t : TimerQueue Co} {l₁ l₂ : List Co} {co : Co}
    {d : Instant} (horder : (l₁ ++ l₂).Pairwise t.Before)
    (harmed : ∀ c ∈ l₁ ++ l₂, (t.armed c).isSome) (hne : ∀ c ∈ l₁ ++ l₂, c ≠ co)
    (hfresh : ∀ c x, t.armed c = some x → x.2 < t.arms)
    (hle : ∀ a ∈ l₁, ∀ x, t.armed a = some x → x.1 ≤ d)
    (hlt : ∀ b ∈ l₂, ∀ x, t.armed b = some x → d < x.1) :
    (l₁ ++ co :: l₂).Pairwise (t.reset co d).Before := by
  have hself : (t.reset co d).armed co = some (d, t.arms) := by simp
  have hsame : ∀ c ∈ l₁ ++ l₂, (t.reset co d).armed c = t.armed c := by
    intro c hc
    rw [reset_armed, if_neg (hne c hc)]
  have hold : (l₁ ++ l₂).Pairwise (t.reset co d).Before :=
    horder.imp_of_mem (fun {a b} ha hb hab => hab.congr (hsame a ha) (hsame b hb))
  obtain ⟨hold₁, hold₂, hcross⟩ := List.pairwise_append.mp hold
  have hbefore : ∀ a ∈ l₁, (t.reset co d).Before a co := by
    intro a ha
    have hal : a ∈ l₁ ++ l₂ := List.mem_append_left _ ha
    obtain ⟨x, hx⟩ := Option.isSome_iff_exists.mp (harmed a hal)
    refine ⟨x, _, (hsame a hal).trans hx, hself, ?_⟩
    exact (lt_or_eq_of_le (hle a ha x hx)).imp_right (fun he => ⟨he, hfresh a x hx⟩)
  have hafter : ∀ b ∈ l₂, (t.reset co d).Before co b := by
    intro b hb
    have hbl : b ∈ l₁ ++ l₂ := List.mem_append_right _ hb
    obtain ⟨x, hx⟩ := Option.isSome_iff_exists.mp (harmed b hbl)
    exact ⟨_, x, hself, (hsame b hbl).trans hx, .inl (hlt b hb x hx)⟩
  apply List.pairwise_append.mpr
  refine ⟨hold₁, List.pairwise_cons.mpr ⟨hafter, hold₂⟩, ?_⟩
  intro a ha b hb
  obtain rfl | hb := List.mem_cons.mp hb
  · exact hbefore a ha
  · exact hcross a ha b hb

theorem pairwise_stop [DecidableEq Co] {t : TimerQueue Co} {l₁ l₂ : List Co} {co : Co}
    (horder : (l₁ ++ co :: l₂).Pairwise t.Before) (hne : ∀ c ∈ l₁ ++ l₂, c ≠ co) :
    (l₁ ++ l₂).Pairwise (t.stop co).Before := by
  have hsub : List.Sublist (l₁ ++ l₂) (l₁ ++ co :: l₂) :=
    (List.sublist_cons_self co l₂).append_left l₁
  have hsame : ∀ c ∈ l₁ ++ l₂, (t.stop co).armed c = t.armed c := by
    intro c hc
    rw [stop_armed, if_neg (hne c hc)]
  exact (horder.sublist hsub).imp_of_mem
    (fun {a b} ha hb hab => hab.congr (hsame a ha) (hsame b hb))

theorem foldl_stop_armed [DecidableEq Co] (l : List Co) (t : TimerQueue Co) (co : Co) :
    (l.foldl stop t).armed co = if co ∈ l then none else t.armed co := by
  induction l generalizing t with
  | nil => simp
  | cons a l ih =>
    rw [List.foldl_cons, ih]
    by_cases hco : co = a
    · simp [stop, hco]
    · simp [stop, hco]

theorem foldl_stop_arms [DecidableEq Co] (l : List Co) (t : TimerQueue Co) :
    (l.foldl stop t).arms = t.arms := by
  induction l generalizing t with
  | nil => rfl
  | cons a l ih => rw [List.foldl_cons, ih, stop]

/-- Disarming the due callouts one after the other. -/
theorem foldl_stop_eq_fire [DecidableEq Co] {t : TimerQueue Co} {now : Instant} {fired : List Co}
    (hfired : ∀ co ∈ fired, ∃ x, t.armed co = some x ∧ x.1 ≤ now)
    (hrest : ∀ co, co ∉ fired → ∀ x, t.armed co = some x → now < x.1) :
    fired.foldl stop t = t.fire now := by
  refine TimerQueue.ext ?_ (foldl_stop_arms fired t)
  funext co
  rw [foldl_stop_armed, fire_armed]
  by_cases hco : co ∈ fired
  · obtain ⟨x, hx, hle⟩ := hfired co hco
    rw [if_pos hco, hx, Option.filter_some_neg (by simpa using hle)]
  · rw [if_neg hco]
    cases hx : t.armed co with
    | none => rfl
    | some x => rw [Option.filter_some_pos (by simpa using hrest co hco x hx)]

end TimerQueue

variable {Co Ev Evq Wk : Type*}

/-- The invariant of the timer list. -/
structure TimersRepresent (n : State Co Ev Evq Wk) (l : List Co) (t : TimerQueue Co) : Prop where
  chain : Visits n.next n.timers.head l
  active : ∀ co, (n.callout co).active = (t.armed co).isSome
  members : ∀ co, co ∈ l ↔ (t.armed co).isSome = true
  deadline : ∀ co x, t.armed co = some x → (n.callout co).deadline = x.1
  order : l.Pairwise t.Before
  fresh : ∀ co x, t.armed co = some x → x.2 < t.arms

theorem timersRepresent_empty {n : State Co Ev Evq Wk} (hhead : n.timers.head = none)
    (hact : ∀ co, (n.callout co).active = false) : TimersRepresent n [] TimerQueue.empty where
  chain := hhead
  active co := by simp [TimerQueue.empty, hact co]
  members := by simp [TimerQueue.empty]
  deadline := by simp [TimerQueue.empty]
  order := .nil
  fresh := by simp [TimerQueue.empty]

/-- Everything but the links, the deadlines and the flags stays as it is. -/
structure TimerFrame (n n' : State Co Ev Evq Wk) : Prop where
  mem : n'.mem = n.mem
  evq : ∀ co, (n'.callout co).evq = (n.callout co).evq

theorem TimerFrame.refl (n : State Co Ev Evq Wk) : TimerFrame n n := ⟨rfl, fun _ => rfl⟩

theorem TimerFrame.trans {n n' n'' : State Co Ev Evq Wk} (h : TimerFrame n n')
    (h' : TimerFrame n' n'') : TimerFrame n n'' :=
  ⟨h'.mem.trans h.mem, fun co => (h'.evq co).trans (h.evq co)⟩

section Cells
variable [DecidableEq Co] {n : State Co Ev Evq Wk}

/-- The write to the link of `co` and the one to the link that leads to it. -/
def relink (n : State Co Ev Evq Wk) (prev : Option Co) (co : Co) (link own : Option Co) :
    State Co Ev Evq Wk :=
  let n := n.setCallout co { n.callout co with next := own }
  match prev with
  | none => { n with timers := { n.timers with head := link } }
  | some p => n.setCallout p { n.callout p with next := link }

theorem insertBehind_eq_relink (prev cur : Option Co) (co : Co) :
    insertBehind n prev cur co = relink n prev co (some co) cur := by
  cases prev <;> rfl

theorem unlinkFound_eq_relink {co : Co} {prev : Option Co} (hprev : prev ≠ some co) :
    unlinkFound n prev co = relink n prev co (n.next co) none := by
  cases prev with
  | none => rfl
  | some p =>
    have hp : p ≠ co := fun heq => hprev (by rw [heq])
    simp [unlinkFound, relink, State.setCallout, hp, hp.symm, Function.update_comm hp]

/-- The cells after the two writes. -/
structure Relinked (prev : Option Co) (co : Co) (link own : Option Co)
    (n n' : State Co Ev Evq Wk) : Prop where
  head : n'.timers.head = if prev = none then link else n.timers.head
  waker : n'.timers.waker = n.timers.waker
  next : ∀ c, n'.next c = if c = co then own else if prev = some c then link else n.next c
  deadline : ∀ c, (n'.callout c).deadline = (n.callout c).deadline
  active : ∀ c, (n'.callout c).active = (n.callout c).active
  frame : TimerFrame n n'

theorem relinked_relink {co : Co} {prev : Option Co} (hprev : prev ≠ some co)
    (link own : Option Co) : Relinked prev co link own n (relink n prev co link own) := by
  cases prev with
  | none =>
    constructor
    case head => rfl
    case waker => rfl
    case next =>
      intro c
      by_cases hc : c = co <;> simp [relink, State.next, hc]
    case frame =>
      refine ⟨rfl, fun c => ?_⟩
      by_cases hc : c = co <;> simp [relink, hc]
    all_goals
      intro c
      by_cases hc : c = co <;> simp [relink, hc]
  | some p =>
    have hp : p ≠ co := fun heq => hprev (by rw [heq])
    constructor
    case head => rfl
    case waker => rfl
    case next =>
      intro c
      by_cases hcp : c = p
      · simp [relink, hcp, hp]
      · simp [relink, hcp, Ne.symm hcp]
    case frame =>
      refine ⟨rfl, fun c => ?_⟩
      by_cases hcp : c = p
      · simp [relink, hcp, hp]
      · by_cases hc : c = co <;> simp [relink, hc, hcp, hp.symm]
    all_goals
      intro c
      by_cases hcp : c = p
      · simp [relink, hcp, hp]
      · by_cases hc : c = co <;> simp [relink, hc, hcp, hp.symm]

end Cells

namespace TimersRepresent

variable {n : State Co Ev Evq Wk} {l : List Co} {t : TimerQueue Co}

theorem nodup (h : TimersRepresent n l t) : l.Nodup := visits_nodup h.chain

/-- The chain is in order of the deadlines. -/
theorem deadlines (h : TimersRepresent n l t) :
    l.Pairwise (fun a b => (n.callout a).deadline ≤ (n.callout b).deadline) := by
  refine h.order.imp (fun {a b} hab => ?_)
  obtain ⟨x, y, hx, hy, hlt⟩ := hab
  rw [h.deadline a x hx, h.deadline b y hy]
  exact hlt.elim le_of_lt (fun he => le_of_eq he.1)

/-- Dropping the waker or storing one does not touch the list. -/
theorem waker (h : TimersRepresent n l t) (w : Option Wk) :
    TimersRepresent { n with timers := { n.timers with waker := w } } l t :=
  ⟨h.chain, h.active, h.members, h.deadline, h.order, h.fresh⟩

variable [DecidableEq Co]

theorem init [DecidableEq Ev] (h : TimersRepresent n l t) {co : Co}
    (hco : (n.callout co).active = false) (evq : Option Evq) (func : Option ℕ) (arg : ℕ) :
    TimersRepresent (bleNplCalloutInit n co evq func arg) l t := by
  have hnone : (t.armed co).isSome = false := by rw [← h.active co, hco]
  refine ⟨?_, fun c => ?_, h.members, fun c x hx => ?_, h.order, h.fresh⟩
  · refine h.chain.congr (fun b hb => ?_)
    have hne : b ≠ co := by
      rintro rfl
      rw [h.members b, hnone] at hb
      exact Bool.false_ne_true hb
    simp [bleNplCalloutInit, State.next, hne]
  · by_cases hc : c = co
    · simp [bleNplCalloutInit, hc, hnone]
    · simpa [bleNplCalloutInit, hc] using h.active c
  · have hc : c ≠ co := by
      rintro rfl
      rw [hx] at hnone
      exact absurd hnone (by simp)
    simpa [bleNplCalloutInit, hc] using h.deadline c x hx

/-- What is left of the list without a callout whose flag has been cleared. -/
theorem stopped {n' : State Co Ev Evq Wk} {l₁ l₂ : List Co} {co : Co}
    (h : TimersRepresent n (l₁ ++ co :: l₂) t)
    (hchain : Visits n'.next n'.timers.head (l₁ ++ l₂)) (hco : (n'.callout co).active = false)
    (hothers : ∀ c, c ≠ co → (n'.callout c).active = (n.callout c).active ∧
      (n'.callout c).deadline = (n.callout c).deadline) :
    TimersRepresent n' (l₁ ++ l₂) (t.stop co) := by
  have hnot : co ∉ l₁ ++ l₂ := (List.nodup_cons.mp (List.nodup_middle.mp h.nodup)).1
  constructor
  case chain => exact hchain
  case active =>
    intro c
    by_cases hc : c = co
    · simp [hc, hco]
    · rw [(hothers c hc).1, h.active c]
      simp [hc]
  case members =>
    intro c
    by_cases hc : c = co
    · subst hc
      simpa using hnot
    · have hmem : c ∈ l₁ ++ l₂ ↔ c ∈ l₁ ++ co :: l₂ := by simp [hc]
      rw [hmem, h.members c]
      simp [hc]
  case deadline =>
    intro c x hx
    obtain ⟨hc, hx⟩ := TimerQueue.armed_of_stop hx
    rw [(hothers c hc).2]
    exact h.deadline c x hx
  case order => exact TimerQueue.pairwise_stop h.order (fun c hc heq => hnot (heq ▸ hc))
  case fresh => exact fun c x hx => h.fresh c x (TimerQueue.armed_of_stop hx).2

/-- The list with a callout that is armed behind those that are due no later. -/
theorem armed {n' : State Co Ev Evq Wk} {l₁ l₂ : List Co} {co : Co} {d : Instant}
    (h : TimersRepresent n (l₁ ++ l₂) t) (hnone : t.armed co = none)
    (hchain : Visits n'.next n'.timers.head (l₁ ++ co :: l₂))
    (hco : (n'.callout co).active = true ∧ (n'.callout co).deadline = d)
    (hothers : ∀ c, c ≠ co → (n'.callout c).active = (n.callout c).active ∧
      (n'.callout c).deadline = (n.callout c).deadline)
    (hle : ∀ a ∈ l₁, (n.callout a).deadline ≤ d) (hlt : ∀ b ∈ l₂, d < (n.callout b).deadline) :
    TimersRepresent n' (l₁ ++ co :: l₂) (t.reset co d) := by
  have hne : ∀ c ∈ l₁ ++ l₂, c ≠ co := by
    rintro c hc rfl
    simp [h.members c, hnone] at hc
  constructor
  case chain => exact hchain
  case active =>
    intro c
    by_cases hc : c = co
    · simp [hc, hco.1]
    · rw [(hothers c hc).1, h.active c]
      simp [hc]
  case members =>
    intro c
    by_cases hc : c = co
    · simp [hc]
    · have hmem : c ∈ l₁ ++ co :: l₂ ↔ c ∈ l₁ ++ l₂ := by simp [hc]
      rw [hmem, h.members c]
      simp [hc]
  case deadline =>
    intro c x hx
    by_cases hc : c = co
    · simp only [TimerQueue.reset_armed, hc, if_true, Option.some.injEq] at hx
      rw [hc, hco.2, ← hx]
    · rw [(hothers c hc).2]
      exact h.deadline c x (by simpa [hc] using hx)
  case order =>
    have harmed : ∀ c ∈ l₁ ++ l₂, (t.armed c).isSome := fun c hc => (h.members c).mp hc
    apply TimerQueue.pairwise_reset h.order harmed hne h.fresh
    · intro a ha x hx
      rw [← h.deadline a x hx]
      exact hle a ha
    · intro b hb x hx
      rw [← h.deadline b x hx]
      exact hlt b hb
  case fresh =>
    intro c x hx
    by_cases hc : c = co
    · simp only [TimerQueue.reset_armed, hc, if_true, Option.some.injEq] at hx
      simp [TimerQueue.reset, ← hx]
    · have hold := h.fresh c x (by simpa [hc] using hx)
      exact Nat.lt_succ_of_lt hold

variable [Fintype Co]

/-- Unlinking and disarming an armed callout. -/
theorem disarm (h : TimersRepresent n l t) (co : Co) :
    ∃ n', calloutDisarm n co = some n' ∧ TimersRepresent n' (l.erase co) (t.stop co) ∧
      TimerFrame n n' ∧ n'.timers.waker = n.timers.waker := by
  by_cases hact : (n.callout co).active = true
  · have hmem : co ∈ l := (h.members co).mpr (by rw [← h.active co, hact])
    obtain ⟨l₁, l₂, rfl⟩ := List.append_of_mem hmem
    have hnot : co ∉ l₁ ++ l₂ := (List.nodup_cons.mp (List.nodup_middle.mp h.nodup)).1
    have hnot₁ : co ∉ l₁ := fun hc => hnot (List.mem_append_left l₂ hc)
    have herase : (l₁ ++ co :: l₂).erase co = l₁ ++ l₂ := by
      rw [List.erase_append_right _ hnot₁, List.erase_cons_head]
    have hunlink : timersUnlink n co = some (unlinkFound n l₁.getLast? co) := by
      simp [timersUnlink, walk_to_mem h.chain]
    have hprev : l₁.getLast? ≠ some co := fun hl => hnot₁ (List.mem_of_getLast? hl)
    have hcells := relinked_relink (n := n) hprev (n.next co) none
    rw [← unlinkFound_eq_relink hprev] at hcells
    refine ⟨_, by simp [calloutDisarm, hact, hunlink]; rfl, ?_, ?_, ?_⟩
    · rw [herase]
      apply h.stopped
      · apply visits_unlink h.chain
        · simpa using hcells.head
        · intro b hb
          have hne : b ≠ co := fun heq => hnot (heq ▸ hb)
          simp [hcells.next, hne]
      · simp
      · intro c hc
        simp [hc, hcells.active, hcells.deadline]
    · refine ⟨hcells.frame.mem, fun c => ?_⟩
      by_cases hc : c = co
      · simpa [hc] using hcells.frame.evq co
      · simpa [hc] using hcells.frame.evq c
    · exact hcells.waker
  · have hnone : t.armed co = none := by
      rw [h.active co] at hact
      exact Option.not_isSome_iff_eq_none.mp hact
    have hstop : t.stop co = t := by
      simp [TimerQueue.stop, ← hnone]
    have hnot : co ∉ l := by simp [h.members co, hnone]
    rw [hstop, List.erase_of_not_mem hnot]
    exact ⟨n, by simp [calloutDisarm, hact], h, TimerFrame.refl n, rfl⟩

omit [DecidableEq Co] [Fintype Co] in
/-- Behind the nodes that a sorted list lets the search pass, all are later. -/
theorem lt_of_mem_dropWhile {f : Co → ℕ} {d : ℕ} {l : List Co}
    (h : l.Pairwise (fun a b => f a ≤ f b)) {b : Co}
    (hb : b ∈ l.dropWhile (fun c => decide (f c ≤ d))) : d < f b := by
  induction l with
  | nil => simp at hb
  | cons a l ih =>
    obtain ⟨ha, hl⟩ := List.pairwise_cons.mp h
    by_cases had : f a ≤ d
    · rw [List.dropWhile_cons_of_pos (by simpa using had)] at hb
      exact ih hl hb
    · rw [List.dropWhile_cons_of_neg (by simpa using had)] at hb
      obtain rfl | hb := List.mem_cons.mp hb
      · omega
      · have := ha b hb
        omega

/-- The search of the sorted insert splits the list at the deadline. -/
theorem insertSorted_spec (hchain : Visits n.next n.timers.head l)
    (hsorted : l.Pairwise (fun a b => (n.callout a).deadline ≤ (n.callout b).deadline)) (co : Co)
    (d : Instant) :
    ∃ l₁ l₂, l = l₁ ++ l₂ ∧
      insertSorted n co d = some (insertBehind n l₁.getLast? l₂.head? co) ∧
      (∀ a ∈ l₁, (n.callout a).deadline ≤ d) ∧ ∀ b ∈ l₂, d < (n.callout b).deadline := by
  refine ⟨l.takeWhile (fun c => decide ((n.callout c).deadline ≤ d)),
    l.dropWhile (fun c => decide ((n.callout c).deadline ≤ d)),
    List.takeWhile_append_dropWhile.symm, ?_, fun a ha => ?_, fun b hb => ?_⟩
  · simp [insertSorted, walk_of_visits_card _ hchain]
  · simpa using List.mem_takeWhile_imp ha
  · exact lt_of_mem_dropWhile hsorted hb

/-- The sorted insert of a callout that is not armed. -/
theorem arm (h : TimersRepresent n l t) {co : Co} (hnone : t.armed co = none) (d : Instant) :
    ∃ n' l', insertSorted (n.setCallout co { n.callout co with deadline := d, active := true })
        co d = some n' ∧ TimersRepresent n' l' (t.reset co d) ∧ TimerFrame n n' ∧
      n'.timers.waker = n.timers.waker := by
  set n₀ := n.setCallout co { n.callout co with deadline := d, active := true } with hn₀
  have hnot : co ∉ l := by simp [h.members co, hnone]
  have hne : ∀ c ∈ l, c ≠ co := fun c hc heq => hnot (heq ▸ hc)
  have hnext₀ : n₀.next = n.next := by
    funext c
    by_cases hc : c = co
    · simp [hn₀, hc, State.next]
    · simp [hn₀, hc]
  have hchain₀ : Visits n₀.next n₀.timers.head l := by
    rw [hnext₀]
    exact h.chain
  have hdeadline₀ : ∀ c ∈ l, (n₀.callout c).deadline = (n.callout c).deadline := by
    intro c hc
    simp [hn₀, hne c hc]
  have hsorted : l.Pairwise (fun a b => (n₀.callout a).deadline ≤ (n₀.callout b).deadline) := by
    refine h.deadlines.imp_of_mem (fun {a b} ha hb hab => ?_)
    rwa [hdeadline₀ a ha, hdeadline₀ b hb]
  obtain ⟨l₁, l₂, rfl, hinsert, hle, hlt⟩ := insertSorted_spec hchain₀ hsorted co d
  have hprev : l₁.getLast? ≠ some co :=
    fun hl => hnot (List.mem_append_left l₂ (List.mem_of_getLast? hl))
  have hcells := relinked_relink (n := n₀) hprev (some co) l₂.head?
  rw [← insertBehind_eq_relink] at hcells
  refine ⟨_, l₁ ++ co :: l₂, hinsert, ?_, ?_, hcells.waker⟩
  · apply h.armed hnone
    · apply visits_link hchain₀
      · simpa using hcells.head
      · simp [hcells.next]
      · intro b hb
        rw [hcells.next b, if_neg (hne b hb)]
    · rw [hcells.active, hcells.deadline]
      simp [hn₀]
    · intro c hc
      rw [hcells.active, hcells.deadline]
      simp [hn₀, hc]
    · intro a ha
      rw [← hdeadline₀ a (List.mem_append_left l₂ ha)]
      exact hle a ha
    · intro b hb
      rw [← hdeadline₀ b (List.mem_append_right l₁ hb)]
      exact hlt b hb
  · refine ⟨hcells.frame.mem, fun c => ?_⟩
    rw [hcells.frame.evq c]
    by_cases hc : c = co
    · simp [hn₀, hc]
    · simp [hn₀, hc]

/-- `ble_npl_callout_reset` is a disarm and a sorted insert. -/
theorem bleNplCalloutReset_eq (n : State Co Ev Evq Wk) (co : Co) (ticks : ℕ) (now : Instant) :
    bleNplCalloutReset n co ticks now = (calloutDisarm n co).bind fun n =>
      (insertSorted (n.setCallout co { n.callout co with deadline := now + ticks, active := true })
        co (now + ticks)).map fun n =>
          ({ n with timers := { n.timers with waker := none } }, n.timers.waker) := by
  unfold bleNplCalloutReset calloutDisarm
  by_cases hact : (n.callout co).active = true
  · cases hu : timersUnlink n co with
    | none => simp [hact]
    | some n' => simp [hact, State.setCallout]
  · simp [hact]

theorem reset (h : TimersRepresent n l t) (co : Co) (ticks : ℕ) (now : Instant) :
    ∃ n' l', bleNplCalloutReset n co ticks now = some (n', n.timers.waker) ∧
      TimersRepresent n' l' (t.reset co (now + ticks)) ∧ TimerFrame n n' ∧
      n'.timers.waker = none := by
  obtain ⟨n₁, hn₁, h₁, hframe₁, hwaker₁⟩ := h.disarm co
  have hnone : (t.stop co).armed co = none := by simp [TimerQueue.stop]
  obtain ⟨n₂, l₂, hn₂, h₂, hframe₂, hwaker₂⟩ := h₁.arm hnone (now + ticks)
  have hreset : (t.stop co).reset co (now + ticks) = t.reset co (now + ticks) := by
    simp [TimerQueue.reset, TimerQueue.stop]
  rw [hreset] at h₂
  refine ⟨_, l₂, ?_, h₂.waker none, ?_, rfl⟩
  · rw [bleNplCalloutReset_eq, hn₁, Option.bind_some, hn₂, Option.map_some, hwaker₂, hwaker₁]
  · exact ⟨(hframe₁.trans hframe₂).mem, (hframe₁.trans hframe₂).evq⟩

omit [Fintype Co] in
/-- Either no armed callout is due, or the first one of the list is taken. -/
theorem takeDue_cases (h : TimersRepresent n l t) (now : Instant) :
    (timersTakeDue n now = (n, none) ∧ ∀ c ∈ l, ∀ x, t.armed c = some x → now < x.1) ∨
      ∃ co x l' n', l = co :: l' ∧ t.armed co = some x ∧ x.1 ≤ now ∧
        timersTakeDue n now = (n', some co) ∧ TimersRepresent n' l' (t.stop co) ∧
        TimerFrame n n' ∧ n'.timers.waker = n.timers.waker := by
  have hhead := visits_head h.chain
  cases l with
  | nil =>
    left
    refine ⟨?_, by simp⟩
    simp only [timersTakeDue, hhead, List.head?_nil]
  | cons co l =>
    obtain ⟨x, hx⟩ := Option.isSome_iff_exists.mp ((h.members co).mp (by simp))
    have hd := h.deadline co x hx
    by_cases hle : x.1 ≤ now
    · right
      have hfirst : TimersRepresent n ([] ++ co :: l) t := h
      have hnot : co ∉ l := (List.nodup_cons.mp h.nodup).1
      refine ⟨co, x, l, ({ n with timers := { n.timers with head := n.next co } }).setCallout co
        { n.callout co with next := none, active := false }, rfl, hx, hle, ?_, ?_,
        ⟨rfl, fun c => ?_⟩, rfl⟩
      · simp only [timersTakeDue, hhead, List.head?_cons, hd, hle, if_true]
      · apply hfirst.stopped
        · refine h.chain.2.congr (fun b hb => ?_)
          have hne : b ≠ co := fun heq => hnot (heq ▸ hb)
          simp [hne, State.next]
        · simp
        · intro c hc
          simp [hc]
      · by_cases hc : c = co
        · simp [hc]
        · simp [hc]
    · left
      constructor
      · simp only [timersTakeDue, hhead, List.head?_cons, hd, hle, if_false]
      · intro c hc y hy
        obtain rfl | hc := List.mem_cons.mp hc
        · obtain rfl : x = y := Option.some.inj (hx.symm.trans hy)
          exact not_le.mp hle
        · -- everything behind the first callout is due no earlier
          have hxy : x.1 ≤ y.1 := ((List.pairwise_cons.mp h.order).1 c hc).le hx hy
          exact (not_le.mp hle).trans_le hxy

end TimersRepresent

section Fire
variable [DecidableEq Co] [DecidableEq Ev] [DecidableEq Evq]

/-- The put of `timers_fire_due` for a callout bound to the queue that `evq` gives. -/
def putExpired (evq : Co → Option Evq) (m : Mem (Co ⊕ Ev) Evq Wk) (co : Co) :
    Mem (Co ⊕ Ev) Evq Wk :=
  match evq co with
  | none => m
  | some q => (bleNplEventqPut m q (eventOf co)).1

variable {n : State Co Ev Evq Wk} {l : List Co} {t : TimerQueue Co}

/-- Of all state, the expiry of the callout touches the event memory: a callout without
a queue has a handler that leaves the state alone. -/
def PutsExpired (handler : ℕ → Co ⊕ Ev → State Co Ev Evq Wk → State Co Ev Evq Wk)
    (evq : Option Evq) (co : Co) : Prop :=
  ∀ n : State Co Ev Evq Wk, (n.callout co).evq = evq → (calloutExpire handler n co).1 =
    { n with mem := putExpired (fun c => (n.callout c).evq) n.mem co }

theorem putsExpired_of_bound (handler : ℕ → Co ⊕ Ev → State Co Ev Evq Wk → State Co Ev Evq Wk)
    {evq : Option Evq} (hevq : evq.isSome = true) (co : Co) : PutsExpired handler evq co := by
  obtain ⟨q, rfl⟩ := Option.isSome_iff_exists.mp hevq
  intro n hn
  simp [calloutExpire, putExpired, hn]

theorem putsExpired_of_id (evq : Option Evq) (co : Co) :
    PutsExpired (fun _ _ (n : State Co Ev Evq Wk) => n) evq co := by
  intro n hn
  cases evq with
  | none => simp [calloutExpire, putExpired, hn]
  | some q => simp [calloutExpire, putExpired, hn]

omit [DecidableEq Co] [DecidableEq Ev] [DecidableEq Evq] in
/-- The event memory is not part of the timer list. -/
theorem TimersRepresent.withMem (h : TimersRepresent n l t) (m : Mem (Co ⊕ Ev) Evq Wk) :
    TimersRepresent { n with mem := m } l t :=
  ⟨h.chain, h.active, h.members, h.deadline, h.order, h.fresh⟩

/-- The loop of `timers_fire_due` ends, having fired the due part of the list in order.
Induction on the list: each turn takes its first callout and reads the clock once. -/
theorem TimersRepresent.fireDue (h : TimersRepresent n l t)
    (handler : ℕ → Co ⊕ Ev → State Co Ev Evq Wk → State Co Ev Evq Wk)
    {clock : ℕ → Instant} (hclock : Monotone clock)
    (hputs : ∀ co ∈ l, PutsExpired handler (n.callout co).evq co) {fuel : ℕ}
    (hfuel : l.length < fuel) (k : ℕ) :
    ∃ fired rest n' readings, l = fired ++ rest ∧
      timersFireDue handler clock fuel k n = some (n', ⟨fired, readings⟩) ∧
      TimersRepresent n' rest (fired.foldl TimerQueue.stop t) ∧
      n'.mem = fired.foldl (putExpired fun c => (n.callout c).evq) n.mem ∧
      (∀ c, (n'.callout c).evq = (n.callout c).evq) ∧ n'.timers.waker = n.timers.waker ∧
      readings = k + fired.length + (if rest = [] then 0 else 1) ∧
      (∀ co ∈ fired, ∀ x, t.armed co = some x → x.1 ≤ clock (readings - 1)) ∧
      ∀ co ∈ rest, ∀ x, t.armed co = some x → clock (readings - 1) < x.1 := by
  induction l generalizing n t fuel k with
  | nil =>
    obtain ⟨fuel, rfl⟩ : ∃ f, fuel = f + 1 := ⟨fuel - 1, by simp at hfuel; omega⟩
    have hhead : n.timers.head = none := visits_head h.chain
    refine ⟨[], [], n, k, rfl, ?_, h, rfl, fun _ => rfl, rfl, by simp, by simp, by simp⟩
    simp [timersFireDue, timersTakeDue, hhead]
  | cons co l ih =>
    obtain ⟨fuel, rfl⟩ : ∃ f, fuel = f + 1 := ⟨fuel - 1, by omega⟩
    have hhead : n.timers.head = some co := visits_head h.chain
    obtain ⟨htake, hlate⟩ | ⟨_, x, _, n₁, hcons, hx, hle, hn₁, h₁, hframe, hwaker⟩ :=
      h.takeDue_cases (clock k)
    · refine ⟨[], co :: l, n, k + 1, rfl, ?_, h, rfl, fun _ => rfl, rfl, by simp, by simp, ?_⟩
      · simp [timersFireDue, htake, hhead]
      · simpa using hlate
    · obtain ⟨rfl, rfl⟩ := List.cons.inj hcons
      set n₂ := (calloutExpire handler n₁ co).1 with hn₂
      have hn₂' := hputs co (by simp) n₁ (hframe.evq co)
      rw [← hn₂, hframe.mem] at hn₂'
      have hevq : ∀ c, (n₂.callout c).evq = (n.callout c).evq := by
        intro c
        rw [hn₂', hframe.evq c]
      have hevq₁ : (fun c => (n₁.callout c).evq) = fun c => (n.callout c).evq :=
        funext hframe.evq
      have h₂ : TimersRepresent n₂ l (t.stop co) := by
        rw [hn₂']
        exact h₁.withMem _
      have hputs₂ : ∀ c ∈ l, PutsExpired handler (n₂.callout c).evq c := by
        intro c hc
        rw [hevq c]
        exact hputs c (by simp [hc])
      obtain ⟨fired, rest, n', readings, hl, hfire, hR, hmem, hevq', hwaker', hreadings, hfired,
        hrest⟩ := ih h₂ hputs₂ (by simpa using hfuel) (k + 1)
      have hother : ∀ c ∈ l, (t.stop co).armed c = t.armed c := by
        intro c hc
        have hne : c ≠ co := fun heq => (List.nodup_cons.mp h.nodup).1 (heq ▸ hc)
        simp [TimerQueue.stop, hne]
      refine ⟨co :: fired, rest, n', readings, by rw [hl]; rfl, ?_, hR, ?_, ?_, ?_, ?_, ?_, ?_⟩
      · simp [timersFireDue, hn₁, ← hn₂, hfire]
      · rw [hmem, List.foldl_cons, funext hevq, hn₂']
        simp [hevq₁]
      · exact fun c => (hevq' c).trans (hevq c)
      · rw [hwaker', hn₂', hwaker]
      · rw [hreadings, List.length_cons]
        omega
      · intro c hc y hy
        obtain rfl | hc := List.mem_cons.mp hc
        · obtain rfl : x = y := Option.some.inj (hx.symm.trans hy)
          exact hle.trans (hclock (by omega))
        · exact hfired c hc y (by rw [hother c (by simp [hl, hc]), hy])
      · exact fun c hc y hy => hrest c hc y (by rw [hother c (by simp [hl, hc]), hy])

end Fire

section EventMemory
variable [DecidableEq Ev] [DecidableEq Evq] [Fintype Co] [Fintype Ev] {n : State Co Ev Evq Wk}
  {f : Fifos (Co ⊕ Ev) Evq}

/-- The second section of a stop takes the event off the queue of the callout, and
leaves the other events where they are. -/
theorem calloutCancel_spec [DecidableEq Co] (h : Represents n.mem f) (co : Co) :
    ∃ m' f', calloutCancel n co = some { n with mem := m' } ∧ Represents m' f' ∧
      ∀ r e, e ∈ f'.items r →
        e ∈ f.items r ∧ ((n.callout co).evq = some r → e ≠ eventOf co) := by
  cases hq : (n.callout co).evq with
  | none =>
    refine ⟨n.mem, f, by simp [calloutCancel, hq], h, fun r e he => ⟨he, ?_⟩⟩
    exact fun hr => absurd hr (by simp)
  | some q =>
    obtain ⟨m', hm', hR⟩ := h.remove q (eventOf co)
    refine ⟨m', _, by simp [calloutCancel, hq, hm'], hR, fun r e he => ⟨Fifos.mem_remove he, ?_⟩⟩
    intro hr
    obtain rfl : q = r := Option.some.inj hr
    exact Fifos.ne_of_mem_remove (h.nodup q) he

omit [Fintype Co] [Fintype Ev] in
/-- What an expiry does to the state, the calls of an inline handler apart: it puts the
event on the queue of the callout, if there is one. -/
theorem calloutExpire_spec [DecidableEq Co] (h : Represents n.mem f) (co : Co) :
    ∃ m' f', (calloutExpire (fun _ _ n => n) n co).1 = { n with mem := m' } ∧
      Represents m' f' ∧ ∀ r e, e ∈ f'.items r →
        e ∈ f.items r ∨ (e = eventOf co ∧ (n.callout co).evq = some r) := by
  cases hq : (n.callout co).evq with
  | none =>
    refine ⟨n.mem, f, ?_, h, fun r e he => .inl he⟩
    simp [calloutExpire, hq]
  | some q =>
    refine ⟨_, _, by simp [calloutExpire, hq], h.put q (eventOf co), fun r e he => ?_⟩
    obtain hold | ⟨heq, rfl, -⟩ := Fifos.mem_put he
    · exact .inl hold
    · exact .inr ⟨heq, rfl⟩

end EventMemory

end NimbleRs.Npl
